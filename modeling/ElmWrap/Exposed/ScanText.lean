import Mathlib.Data.List.DropRight
import ElmWrap.Exposed.PackageText
import ElmWrap.Exposed.Scan

/-!
# What the scanner makes of an elm.json

The run over lists of modules, over the names of categories and over categories. A name can
leave the scanner in the search, in an array before an element or in one behind an element,
and it can have passed the end marker.
-/

namespace ElmWrap

open Lib.JsonText
open Lib.Scan (isSpace)

/-! ## Texts without marks -/

/-- The text has no mark that the scanner heeds, blanks apart. -/
def Inert (word : List Char) : Prop :=
  ∀ c ∈ word, c ≠ '"' ∧ c ≠ ',' ∧ c ≠ '[' ∧ c ≠ ']' ∧ c ≠ '}'

theorem Lib.JsonText.Blank.spaces {text : List Char} (blank : Blank text) :
    ∀ c ∈ text, isSpace c = true := by
  intro c member
  have white := blank c member
  simp only [isBlank, Bool.or_eq_true, decide_eq_true_eq] at white
  rcases white with ((rfl | rfl) | rfl) | rfl <;> rfl

theorem Lib.JsonText.Blank.inert {text : List Char} (blank : Blank text) : Inert text := by
  intro c member
  have white := blank c member
  simp only [isBlank, Bool.or_eq_true, decide_eq_true_eq] at white
  rcases white with ((rfl | rfl) | rfl) | rfl <;> decide

theorem Inert.cons {c : Char} {word : List Char}
    (first : c ≠ '"' ∧ c ≠ ',' ∧ c ≠ '[' ∧ c ≠ ']' ∧ c ≠ '}') (others : Inert word) :
    Inert (c :: word) := by
  intro d member
  rcases List.mem_cons.mp member with rfl | member
  · exact first
  · exact others d member

theorem Inert.append {first second : List Char} (left : Inert first) (right : Inert second) :
    Inert (first ++ second) :=
  fun c member => (List.mem_append.mp member).elim (left c) (right c)

theorem Inert.noBrace {word : List Char} (inert : Inert word) : decide ('}' ∈ word) = false := by
  rw [decide_eq_false_iff_not]
  exact fun member => (inert _ member).2.2.2.2 rfl

theorem Inert.run_search {word : List Char} (inert : Inert word) (ended : Bool)
    (text : List Char) :
    ScanMode.search.run ended (word ++ text) = ScanMode.search.run ended text := by
  rw [ScanMode.run_searches fun member => (inert _ member).2.2.1 rfl, inert.noBrace,
    Bool.or_false]

theorem Inert.run_rest {word : List Char} (inert : Inert word) (ended : Bool)
    (text : List Char) :
    ScanMode.rest.run ended (word ++ text) = ScanMode.rest.run ended text := by
  rw [ScanMode.run_rests fun c member => ⟨(inert c member).2.1, (inert c member).2.2.2.1⟩,
    inert.noBrace, Bool.or_false]

theorem Inert.run_name {word : List Char} (inert : Inert word) (start : List Char)
    (ended : Bool) (text : List Char) :
    (ScanMode.name start).run ended (word ++ '"' :: text) =
      String.ofList (start ++ word) :: ScanMode.rest.run ended text := by
  rw [ScanMode.run_name fun member => (inert _ member).1 rfl, inert.noBrace, Bool.or_false]

/-! ## Modules -/

theorem isModuleChar_ne {c d : Char} (char : isModuleChar c = true)
    (other : isModuleChar d = false) : c ≠ d := by
  rintro rfl
  rw [char] at other
  cases other

theorem hexDigit_inert {c : Char} {n : Nat} (digit : hexDigit c = some n) :
    c ≠ '"' ∧ c ≠ ',' ∧ c ≠ '[' ∧ c ≠ ']' ∧ c ≠ '}' := by
  refine ⟨?_, ?_, ?_, ?_, ?_⟩ <;> rintro rfl <;> cases digit

theorem hex4_inert {a b c d : Char} {n : Nat} (digits : hex4 a b c d = some n) {word : List Char}
    (inert : Inert word) : Inert ('\\' :: 'u' :: a :: b :: c :: d :: word) := by
  unfold hex4 at digits
  split at digits
  · rename_i first second third fourth
    exact .cons (by decide) (.cons (by decide) (.cons (hexDigit_inert first)
      (.cons (hexDigit_inert second) (.cons (hexDigit_inert third)
        (.cons (hexDigit_inert fourth) inert)))))
  · cases digits

/-- No character of a module name has a short escape. -/
theorem shortEscape_noModule {c byte : Char} (escape : shortEscape c = some byte) :
    isModuleChar byte = false := by
  unfold shortEscape at escape
  repeat' split at escape
  all_goals cases escape
  all_goals try rfl
  rename_i same
  rcases same with rfl | rfl | rfl <;> rfl

/-- The text of a module name has no marks. -/
theorem body_inert {raw bytes : List Char} (body : Body raw bytes)
    (chars : ∀ c ∈ bytes, isModuleChar c = true) : Inert raw := by
  have nothing : Inert [] := fun c member => by cases member
  induction body with
  | nil => exact nothing
  | cons first _ ih =>
    refine Inert.append ?_ (ih fun c member => chars c (List.mem_append_right _ member))
    cases first with
    | @plain c =>
      have char := chars c (List.mem_append_left _ List.mem_cons_self)
      exact .cons ⟨isModuleChar_ne char rfl, isModuleChar_ne char rfl,
        isModuleChar_ne char rfl, isModuleChar_ne char rfl, isModuleChar_ne char rfl⟩ nothing
    | @short c byte escape =>
      have char := chars byte (List.mem_append_left _ List.mem_cons_self)
      rw [shortEscape_noModule escape] at char
      cases char
    | unicode digits => exact hex4_inert digits nothing
    | pair digits digits' => exact hex4_inert digits (hex4_inert digits' nothing)

theorem utf8_length (code : Nat) : 0 < (utf8 code).length ∧ (utf8 code).length < 6 := by
  unfold utf8
  split
  · simp
  split
  · simp
  split
  · simp
  · simp

/-- Where there is an escape, the text is longer than what it stands for. -/
theorem body_length {raw bytes : List Char} (body : Body raw bytes) :
    bytes.length ≤ raw.length ∧ ('\\' ∈ raw → bytes.length < raw.length) := by
  induction body with
  | nil => exact ⟨Nat.le_refl _, fun member => by cases member⟩
  | cons first _ ih =>
    obtain ⟨le, lt⟩ := ih
    simp only [List.length_append, List.mem_append]
    cases first with
    | @plain c text =>
      refine ⟨by simpa using le, fun member => ?_⟩
      rcases member with here | later
      · exact absurd (List.mem_singleton.mp here).symm text.2
      · simpa using lt later
    | short =>
      simp only [List.length_cons, List.length_nil]
      omega
    | @unicode a b c d code =>
      have := utf8_length code
      simp only [List.length_cons, List.length_nil]
      omega
    | @pair a b c d a' b' c' d' high low =>
      have := utf8_length (pairCode high low)
      simp only [List.length_cons, List.length_nil]
      omega

theorem body_plain {raw bytes : List Char} (body : Body raw bytes) (plain : '\\' ∉ raw) :
    raw = bytes := by
  induction body with
  | nil => rfl
  | cons first _ ih =>
    rw [List.mem_append, not_or] at plain
    rw [ih plain.2]
    cases first with
    | plain => rfl
    | short => exact absurd List.mem_cons_self plain.1
    | unicode => exact absurd List.mem_cons_self plain.1
    | pair => exact absurd List.mem_cons_self plain.1

namespace ModuleName

/-- The name as it is written. -/
def written (m : ModuleName) : String := String.ofList m.raw

theorem inert (m : ModuleName) : Inert m.raw := body_inert m.body m.chars

theorem value_eq (m : ModuleName) : m.value = String.ofList m.bytes := by
  have all : m.bytes.takeWhile (· ≠ '\x00') = m.bytes := by
    rw [List.takeWhile_eq_self_iff]
    intro c member
    simpa using isModuleChar_ne (m.chars c member) (show isModuleChar '\x00' = false from rfl)
  rw [value, cString, all]

/-- A name is found as it is read where it has no escape. -/
theorem written_eq_value {m : ModuleName} : m.written = m.value ↔ m.Plain := by
  rw [written, value_eq, String.ofList_inj]
  constructor
  · intro same escape
    have longer := (body_length m.body).2 escape
    rw [same] at longer
    exact Nat.lt_irrefl _ longer
  · exact body_plain m.body

end ModuleName

theorem map_written_eq {modules : List ModuleName} :
    modules.map ModuleName.written = modules.map ModuleName.value ↔ ∀ m ∈ modules, m.Plain := by
  rw [List.map_inj_left]
  exact forall₂_congr fun m _ => ModuleName.written_eq_value

/-! ## Lists of modules -/

/-- Before an element, a module is found. -/
theorem run_module {m : ModuleName} {lead text trail : List Char} (before : Blank lead)
    (here : ModuleText m text) (after : Blank trail) (ended : Bool) (others : List Char) :
    ScanMode.element.run ended (lead ++ text ++ trail ++ others) =
      m.written :: ScanMode.rest.run ended others := by
  have same : lead ++ text ++ trail ++ others =
      lead ++ '"' :: (m.raw ++ '"' :: (trail ++ others)) := by
    rw [here]
    simp
  have enter : ScanMode.element.run ended ('"' :: (m.raw ++ '"' :: (trail ++ others))) =
      (ScanMode.name []).run ended (m.raw ++ '"' :: (trail ++ others)) := by
    simp [ScanMode.run_cons, ScanMode.next, ScanMode.emits, isSpace]
  rw [same, ScanMode.run_spaces before.spaces, enter, m.inert.run_name, after.inert.run_rest]
  rfl

/-- Behind an element, a module is passed over. -/
theorem run_passed {m : ModuleName} {lead text trail : List Char} (before : Blank lead)
    (here : ModuleText m text) (after : Blank trail) (ended : Bool) (others : List Char) :
    ScanMode.rest.run ended (lead ++ text ++ trail ++ others) =
      ScanMode.rest.run ended others := by
  have quote : ∀ others, ScanMode.rest.run ended ('"' :: others) = ScanMode.rest.run ended others :=
    fun others => by simp [ScanMode.run_rest]
  have same : lead ++ text ++ trail ++ others =
      lead ++ '"' :: (m.raw ++ '"' :: (trail ++ others)) := by
    rw [here]
    simp
  rw [same, before.inert.run_rest, quote, m.inert.run_rest, quote, after.inert.run_rest]

theorem rest_comma (ended : Bool) (text : List Char) :
    ScanMode.rest.run ended (',' :: text) = ScanMode.element.run ended text := by
  simp [ScanMode.run_cons, ScanMode.next, ScanMode.emits]

theorem rest_close (ended : Bool) (text : List Char) :
    ScanMode.rest.run ended (']' :: text) = ScanMode.search.run ended text := by
  simp [ScanMode.run_cons, ScanMode.next, ScanMode.emits]

theorem element_close (ended : Bool) (text : List Char) :
    ScanMode.element.run ended (']' :: text) = ScanMode.search.run ended text := by
  simp [ScanMode.run_cons, ScanMode.next, ScanMode.emits, isSpace]

/-- Behind its bracket, a list is found as it is written. -/
theorem run_modules {modules : List ModuleName} {inner : List Char}
    (listed : Listed ModuleText modules inner) (ended : Bool) (others : List Char) :
    ScanMode.element.run ended (inner ++ ']' :: others) =
      modules.map ModuleName.written ++ ScanMode.search.run ended others := by
  rcases listed with ⟨rfl, blank⟩ | separated
  · rw [ScanMode.run_spaces blank.spaces, element_close]
    rfl
  · induction separated with
    | one before here after =>
      rw [run_module before here after, rest_close]
      rfl
    | @more a as lead text trail texts before here after _ ih =>
      have same : lead ++ text ++ trail ++ ',' :: texts ++ ']' :: others =
          lead ++ text ++ trail ++ ',' :: (texts ++ ']' :: others) := by simp
      rw [same, run_module before here after, rest_comma, ih]
      rfl

/-- In an array behind an element, the bracket is not seen, and the first module is lost. -/
theorem run_modules_rest {modules : List ModuleName} {inner : List Char}
    (listed : Listed ModuleText modules inner) (ended : Bool) (others : List Char) :
    ScanMode.rest.run ended ('[' :: (inner ++ ']' :: others)) =
      (modules.map ModuleName.written).tail ++ ScanMode.search.run ended others := by
  have bracket : ∀ text, ScanMode.rest.run ended ('[' :: text) = ScanMode.rest.run ended text :=
    fun text => by simp [ScanMode.run_rest]
  rw [bracket]
  rcases listed with ⟨rfl, blank⟩ | separated
  · rw [blank.inert.run_rest, rest_close]
    rfl
  · cases separated with
    | one before here after =>
      rw [run_passed before here after, rest_close]
      rfl
    | @more a as lead text trail texts before here after later =>
      have same : lead ++ text ++ trail ++ ',' :: texts ++ ']' :: others =
          lead ++ text ++ trail ++ ',' :: (texts ++ ']' :: others) := by simp
      rw [same, run_passed before here after, rest_comma, run_modules (Or.inr later)]
      rfl

/-! ## Names of categories -/

/-- The part of a name behind a bracket that stays open, with the bracket. -/
def leftOpen (raw : List Char) : List Char := strchr (raw.rtakeWhile (· ≠ ']')) '['

/-- The part of a name before that. -/
def aheadOfOpen (raw : List Char) : List Char :=
  raw.rdropWhile (· ≠ ']') ++ (raw.rtakeWhile (· ≠ ']')).takeWhile (· ≠ '[')

/-- Behind the bracket that stays open there are blanks only, or since the last comma. -/
def beforeElement (raw : List Char) : Bool :=
  ((leftOpen raw).tail.rtakeWhile (· ≠ ',')).all isSpace

theorem aheadOfOpen_append (raw : List Char) : aheadOfOpen raw ++ leftOpen raw = raw := by
  rw [aheadOfOpen, leftOpen, strchr, List.append_assoc, List.takeWhile_append_dropWhile,
    List.rdropWhile_append_rtakeWhile]

/-- A mode outside of names. -/
def ScanMode.Outside (mode : ScanMode) : Prop := ∀ start, mode ≠ .name start

/-- A character of a name. A quote has a backslash before it and does what that does. -/
def skim (state : ScanMode × Bool) (c : Char) : ScanMode × Bool :=
  (state.1.next state.2 (if c = '"' then '\\' else c), state.2 || c = '}')

theorem ScanMode.next_outside {mode : ScanMode} (outside : mode.Outside) {c : Char}
    (noQuote : c ≠ '"') (ended : Bool) : (mode.next ended c).Outside := by
  intro start
  cases mode with
  | search =>
    simp only [ScanMode.next]
    split <;> exact ScanMode.noConfusion
  | element =>
    simp only [ScanMode.next, if_neg noQuote]
    split
    · exact ScanMode.noConfusion
    · split <;> exact ScanMode.noConfusion
  | name start => exact absurd rfl (outside start)
  | rest =>
    simp only [ScanMode.next]
    split
    · exact ScanMode.noConfusion
    · split <;> exact ScanMode.noConfusion

theorem skim_outside {state : ScanMode × Bool} (outside : state.1.Outside) (c : Char) :
    (skim state c).1.Outside := by
  refine ScanMode.next_outside outside ?_ state.2
  split
  · decide
  · assumption

theorem skims_outside {state : ScanMode × Bool} (outside : state.1.Outside) (word : List Char) :
    (word.foldl skim state).1.Outside := by
  induction word generalizing state with
  | nil => exact outside
  | cons c word ih => exact ih (skim_outside outside c)

theorem skims_ended (state : ScanMode × Bool) (word : List Char) :
    (word.foldl skim state).2 = (state.2 || '}' ∈ word) := by
  induction word generalizing state with
  | nil => simp
  | cons c word ih =>
    rw [List.foldl_cons, ih]
    simp [skim, Bool.or_assoc, eq_comm]

/-- The run goes through characters that are no quotes. -/
theorem run_unquoted {word : List Char} (noQuote : ∀ c ∈ word, c ≠ '"')
    {state : ScanMode × Bool} (outside : state.1.Outside) (others : List Char) :
    state.1.run state.2 (word ++ others) =
      (word.foldl skim state).1.run (word.foldl skim state).2 others := by
  induction word generalizing state with
  | nil => rfl
  | cons c word ih =>
    have silent : state.1.emits c = [] := by
      obtain ⟨mode, ended⟩ := state
      cases mode with
      | name start => exact absurd rfl (outside start)
      | search => rfl
      | element => rfl
      | rest => rfl
    have same : skim state c = (state.1.next state.2 c, state.2 || c = '}') := by
      rw [skim, if_neg (noQuote c List.mem_cons_self)]
    have later := ih (fun d member => noQuote d (List.mem_cons_of_mem _ member))
      (skim_outside outside c)
    rw [List.cons_append, ScanMode.run_cons, silent, List.foldl_cons, ← later, same]
    rfl

theorem run_piece {piece bytes : List Char} (here : Piece piece bytes)
    {state : ScanMode × Bool} (outside : state.1.Outside) (others : List Char) :
    state.1.run state.2 (piece ++ others) =
      (piece.foldl skim state).1.run (piece.foldl skim state).2 others := by
  cases here with
  | plain text =>
    refine run_unquoted (fun d member => ?_) outside others
    rw [List.mem_singleton.mp member]
    exact text.1
  | @short c byte escape =>
    by_cases quote : c = '"'
    · subst quote
      obtain ⟨mode, ended⟩ := state
      cases mode with
      | name start => exact absurd rfl (outside start)
      | search => simp [skim, ScanMode.run_cons, ScanMode.next, ScanMode.emits]
      | element => simp [skim, ScanMode.run_cons, ScanMode.next, ScanMode.emits, isSpace]
      | rest => simp [skim, ScanMode.run_cons, ScanMode.next, ScanMode.emits]
    · refine run_unquoted (fun d member => ?_) outside others
      rcases List.mem_cons.mp member with rfl | member
      · decide
      · rw [List.mem_singleton.mp member]
        exact quote
  | unicode digits =>
    refine run_unquoted (fun d member => ?_) outside others
    exact (hex4_inert digits (fun c member => by cases member) d member).1
  | pair digits digits' =>
    refine run_unquoted (fun d member => ?_) outside others
    exact (hex4_inert digits (hex4_inert digits' fun c member => by cases member) d member).1

theorem run_body {raw bytes : List Char} (body : Body raw bytes) {state : ScanMode × Bool}
    (outside : state.1.Outside) (others : List Char) :
    state.1.run state.2 (raw ++ others) =
      (raw.foldl skim state).1.run (raw.foldl skim state).2 others := by
  induction body generalizing state with
  | nil => rfl
  | cons first _ ih =>
    rw [List.append_assoc, run_piece first outside, ih (skims_outside outside _),
      List.foldl_append]

/-- In the search, a text without an opening bracket changes nothing but the end marker. -/
theorem skims_search {word : List Char} (noOpen : '[' ∉ word) (ended : Bool) :
    word.foldl skim (.search, ended) = (.search, ended || '}' ∈ word) := by
  induction word generalizing ended with
  | nil => simp
  | cons c word ih =>
    have other : (if c = '"' then '\\' else c) ≠ '[' := by
      split
      · decide
      · exact fun same => noOpen (same ▸ List.mem_cons_self)
    have one : skim (.search, ended) c = (.search, ended || c = '}') := by
      simp only [skim, ScanMode.next, if_neg fun open_ : _ ∧ _ => other open_.1]
    rw [List.foldl_cons, one, ih fun member => noOpen (List.mem_cons_of_mem _ member)]
    simp [Bool.or_assoc, eq_comm]

theorem skims_stopped (word : List Char) :
    word.foldl skim (.search, true) = (.search, true) := by
  induction word with
  | nil => rfl
  | cons c word ih =>
    have one : skim (.search, true) c = (.search, true) := by
      simp [skim, ScanMode.next]
    rw [List.foldl_cons, one, ih]

theorem skim_close {state : ScanMode × Bool} (outside : state.1.Outside) :
    (skim state ']').1 = .search := by
  obtain ⟨mode, ended⟩ := state
  cases mode with
  | name start => exact absurd rfl (outside start)
  | search => simp [skim, ScanMode.next]
  | element => simp [skim, ScanMode.next, isSpace]
  | rest => simp [skim, ScanMode.next]

/-- The last mark of the kind, if there is one, ends what `rdropWhile` leaves. -/
theorem rdropWhile_ends (word : List Char) (c : Char) :
    word.rdropWhile (· ≠ c) = [] ∨ ∃ first, word.rdropWhile (· ≠ c) = first ++ [c] := by
  by_cases nothing : word.rdropWhile (· ≠ c) = []
  · exact Or.inl nothing
  · have last := List.rdropWhile_last_not (· ≠ c) word nothing
    have here : (word.rdropWhile (· ≠ c)).getLast nothing = c := by simpa using last
    have whole := List.dropLast_append_getLast nothing
    rw [here] at whole
    exact Or.inr ⟨_, whole.symm⟩

theorem search_outside : ScanMode.search.Outside := fun _ => ScanMode.noConfusion

/-- Before the bracket that stays open the scanner is in the search. -/
theorem skims_ahead (raw : List Char) : (aheadOfOpen raw).foldl skim (.search, false) =
    (.search, decide ('}' ∈ aheadOfOpen raw)) := by
  have closed : ((raw.rdropWhile (· ≠ ']')).foldl skim (.search, false)).1 = .search := by
    rcases rdropWhile_ends raw ']' with nothing | ⟨first, ends⟩
    · rw [nothing]
      rfl
    · rw [ends, List.foldl_append]
      exact skim_close (skims_outside search_outside first)
  have noOpen : '[' ∉ (raw.rtakeWhile (· ≠ ']')).takeWhile (· ≠ '[') := fun member => by
    simpa using List.mem_takeWhile_imp member
  have mode : ((aheadOfOpen raw).foldl skim (.search, false)).1 = .search := by
    rw [aheadOfOpen, List.foldl_append]
    generalize (raw.rdropWhile (· ≠ ']')).foldl skim (.search, false) = state at closed
    obtain ⟨mode, ended⟩ := state
    cases closed
    rw [skims_search noOpen]
  exact Prod.ext mode (by rw [skims_ended, Bool.false_or])

/-- In an array, a text that closes nothing leads to the next element where it ends with a
comma and blanks. -/
theorem skims_array {word : List Char} (noClose : ']' ∉ word) (ended : Bool) :
    (word.foldl skim (.element, ended)).1 =
      if (word.rtakeWhile (· ≠ ',')).all isSpace then .element else .rest := by
  induction word using List.reverseRecOn with
  | nil => rfl
  | append_singleton word c ih =>
    have before := ih fun member => noClose (List.mem_append_left _ member)
    have here : c ≠ ']' := fun same =>
      noClose (List.mem_append_right _ (same ▸ List.mem_cons_self))
    rw [List.foldl_append, List.foldl_cons, List.foldl_nil, skim]
    by_cases comma : c = ','
    · rw [List.rtakeWhile_concat_neg _ _ _ (by simp [comma]), before, comma]
      have plain : (if ',' = '"' then '\\' else ',') = ',' := rfl
      rw [plain]
      cases (word.rtakeWhile (· ≠ ',')).all isSpace <;> simp [ScanMode.next]
    · rw [List.rtakeWhile_concat_pos _ _ _ (by simp [comma]), List.all_append, before]
      have blurred : ∃ d, (if c = '"' then '\\' else c) = d ∧ isSpace d = isSpace c ∧
          d ≠ ',' ∧ d ≠ ']' ∧ d ≠ '"' := by
        by_cases quote : c = '"'
        · exact ⟨'\\', if_pos quote, by rw [quote]; rfl, by decide⟩
        · exact ⟨c, if_neg quote, rfl, comma, here, quote⟩
      obtain ⟨d, same, space, noComma, noClose, noQuote⟩ := blurred
      rw [same]
      cases (word.rtakeWhile (· ≠ ',')).all isSpace with
      | true =>
        cases spaced : isSpace c <;>
          simp [ScanMode.next, space, spaced, noComma, noClose, noQuote]
      | false => simp [ScanMode.next, noComma, noClose]

/-- Where a name leaves the scanner. -/
theorem skims_name (raw : List Char) : raw.foldl skim (.search, false) =
    if '}' ∈ aheadOfOpen raw then (.search, true)
    else if leftOpen raw = [] then (.search, false)
    else (if beforeElement raw then .element else .rest, decide ('}' ∈ raw)) := by
  have whole := aheadOfOpen_append raw
  have fold : raw.foldl skim (.search, false) =
      (leftOpen raw).foldl skim (.search, decide ('}' ∈ aheadOfOpen raw)) := by
    rw [← skims_ahead, ← List.foldl_append, whole]
  rw [fold]
  split
  · rename_i passed
    rw [decide_eq_true passed, skims_stopped]
  rename_i notPassed
  rw [decide_eq_false notPassed]
  split
  · rename_i nothing
    rw [nothing]
    rfl
  rename_i some_
  refine Prod.ext ?_ ?_
  · rcases strchr_cases (raw.rtakeWhile (· ≠ ']')) '[' with
      ⟨-, none_⟩ | ⟨before, inner, same, -, found⟩
    · exact absurd none_ some_
    · have noClose : ']' ∉ inner := fun member => by
        have inside : ']' ∈ raw.rtakeWhile (· ≠ ']') := by
          rw [same]
          exact List.mem_append_right _ (List.mem_cons_of_mem _ member)
        simpa using List.mem_rtakeWhile_imp inside
      rw [beforeElement, show leftOpen raw = '[' :: inner from found, List.foldl_cons]
      exact skims_array noClose _
  · rw [skims_ended, Bool.false_or]
    change decide ('}' ∈ leftOpen raw) = decide ('}' ∈ raw)
    rw [decide_eq_decide]
    nth_rewrite 2 [← whole]
    rw [List.mem_append]
    exact ⟨Or.inr, fun member => member.resolve_left notPassed⟩

end ElmWrap
