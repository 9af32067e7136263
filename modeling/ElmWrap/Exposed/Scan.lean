import Mathlib.Data.List.TakeWhile
import ElmWrap.Lib.Scan

/-!
# The scanners for exposed modules

`parse_elm_json` of `docs.c` and `check_duplicate_exposed_modules` of `install_check.c` look
for the exposed modules in the text of an `elm.json`, without a parser. Both have the same
loops. A pointer into the text is what stands from there on, and no text the null pointer.
What the loops find is what a scanner finds that takes one character after the other.
-/

namespace ElmWrap

open Lib.Scan (isSpace)

/-! ## The loops -/

/-- `strchr`. -/
def strchr (text : List Char) (c : Char) : List Char := text.dropWhile (· ≠ c)

/-- `strstr`. -/
def strstr (needle : List Char) : List Char → Option (List Char)
  | [] => if needle = [] then some [] else none
  | c :: text => if needle.isPrefixOf (c :: text) then some (c :: text) else strstr needle text

/-- The name at a quote, and what follows its closing quote. -/
def quotedModule : List Char → List String × List Char
  | '"' :: start =>
    match strchr start '"' with
    | [] => ([], [])
    | _ :: p => ([String.ofList (start.takeWhile (· ≠ '"'))], p)
  | p => ([], p)

/-- Skip to the next element or the end. -/
def nextElement (p : List Char) : List Char :=
  match p.dropWhile fun c => c ≠ ',' ∧ c ≠ ']' with
  | ',' :: p => p
  | p => p

/-- The loop over one array, behind its bracket: the names, and where it stops. Every round
takes a character at least. -/
def scanArray : Nat → List Char → List String × List Char
  | 0, p => ([], p)
  | _ + 1, [] => ([], [])
  | rounds + 1, p =>
    match p.dropWhile isSpace with
    | ']' :: p => ([], ']' :: p)
    | p =>
      let name := quotedModule p
      let read := scanArray rounds (nextElement name.2)
      (name.1 ++ read.1, read.2)

/-- The loop over the arrays, up to the end marker. -/
def scanArrays (isCategorized : Bool) (endMarker : List Char) : Nat → List Char → List String
  | 0, _ => []
  | rounds + 1, searchPos =>
    if endMarker ≠ [] ∧ endMarker.length < searchPos.length then
      let read := scanArray searchPos.length searchPos.tail
      if isCategorized then
        read.1 ++ scanArrays isCategorized endMarker rounds (strchr read.2 '[')
      else read.1
    else []

/-- The key, with its quotes. -/
def exposedKey : List Char := "\"exposed-modules\"".toList

/-- The modules that are found from `value_start` on. -/
def scanValue (valueStart : List Char) : List String :=
  let isCategorized : Bool := valueStart.head? = some '{'
  let bracket := strchr valueStart '['
  let endMarker := if isCategorized then strchr valueStart '}' else strchr bracket ']'
  scanArrays isCategorized endMarker valueStart.length bracket

/-- The modules that are found in a text. -/
def scanExposedModules (content : List Char) : List String :=
  match strstr exposedKey content with
  | none => []
  | some exposed =>
    scanValue ((exposed.drop exposedKey.length).dropWhile fun c => c = ':' ∨ isSpace c = true)

/-- `exposed_modules_add`. -/
def exposedModulesAdd (em : List String) (module : String) : List String :=
  if module ∈ em then em else em ++ [module]

/-- `parse_elm_json` of `docs.c`: whether it found a module, and the modules. -/
def docsParseElmJson (content : List Char) : Bool × List String :=
  let em := (scanExposedModules content).foldl exposedModulesAdd []
  (0 < em.length, em)

/-- The loop of `check_duplicate_exposed_modules` over the modules it has collected. -/
def duplicates : List String → Nat
  | [] => 0
  | module :: modules => (if module ∈ modules then 1 else 0) + duplicates modules

/-- `check_duplicate_exposed_modules` of `install_check.c`. -/
def checkDuplicateExposedModules (content : List Char) : Nat :=
  duplicates (scanExposedModules content)

/-! ## One character after the other -/

/-- What the scanner is in: the search for a bracket, an array before an element, the name
that has been read so far, or an array behind an element. -/
inductive ScanMode
  | search
  | element
  | name (start : List Char)
  | rest

namespace ScanMode

/-- The next mode, given whether the end marker has been passed. -/
def next (ended : Bool) (c : Char) : ScanMode → ScanMode
  | search => if c = '[' ∧ ended = false then element else search
  | element =>
    if isSpace c = true ∨ c = ',' then element
    else if c = ']' then search
    else if c = '"' then name []
    else rest
  | name start => if c = '"' then rest else name (start ++ [c])
  | rest => if c = ',' then element else if c = ']' then search else rest

/-- The name a character ends. -/
def emits (c : Char) : ScanMode → List String
  | name start => if c = '"' then [String.ofList start] else []
  | _ => []

/-- The names found in a text. -/
def run : ScanMode → Bool → List Char → List String
  | _, _, [] => []
  | mode, ended, c :: text =>
    mode.emits c ++ run (mode.next ended c) (ended || c = '}') text

@[simp] theorem run_nil (mode : ScanMode) (ended : Bool) : mode.run ended [] = [] := rfl

theorem run_cons (mode : ScanMode) (ended : Bool) (c : Char) (text : List Char) :
    mode.run ended (c :: text) =
      mode.emits c ++ run (mode.next ended c) (ended || c = '}') text := rfl

theorem run_search {c : Char} (other : c ≠ '[') (ended : Bool) (text : List Char) :
    search.run ended (c :: text) = search.run (ended || c = '}') text := by
  rw [run_cons, next, if_neg (fun open_ => other open_.1)]
  rfl

/-- Behind the end marker nothing is found. -/
theorem run_ended (text : List Char) : search.run true text = [] := by
  induction text with
  | nil => rfl
  | cons c text ih =>
    rw [run_cons, next, if_neg (fun open_ => Bool.noConfusion open_.2), Bool.true_or, ih]
    rfl

theorem run_rest {c : Char} (other : c ≠ ',' ∧ c ≠ ']') (ended : Bool) (text : List Char) :
    rest.run ended (c :: text) = rest.run (ended || c = '}') text := by
  rw [run_cons, next, if_neg other.1, if_neg other.2]
  rfl

theorem run_rests {word : List Char} (others : ∀ c ∈ word, c ≠ ',' ∧ c ≠ ']') (ended : Bool)
    (text : List Char) : rest.run ended (word ++ text) = rest.run (ended || '}' ∈ word) text := by
  induction word generalizing ended with
  | nil => simp
  | cons c word ih =>
    rw [List.cons_append, run_rest (others c List.mem_cons_self),
      ih fun d member => others d (List.mem_cons_of_mem _ member)]
    simp [Bool.or_assoc, eq_comm]

theorem run_searches {word : List Char} (others : '[' ∉ word) (ended : Bool)
    (text : List Char) :
    search.run ended (word ++ text) = search.run (ended || '}' ∈ word) text := by
  induction word generalizing ended with
  | nil => simp
  | cons c word ih =>
    have other : c ≠ '[' := fun same => others (same ▸ List.mem_cons_self)
    rw [List.cons_append, run_search other,
      ih fun member => others (List.mem_cons_of_mem _ member)]
    simp [Bool.or_assoc, eq_comm]

theorem run_space {c : Char} (space : isSpace c = true) (ended : Bool) (text : List Char) :
    element.run ended (c :: text) = element.run ended text := by
  have noBrace : decide (c = '}') = false := by
    rw [decide_eq_false_iff_not]
    rintro rfl
    cases space
  rw [run_cons, next, if_pos (Or.inl space), noBrace, Bool.or_false]
  rfl

theorem run_spaces {blank : List Char} (spaces : ∀ c ∈ blank, isSpace c = true) (ended : Bool)
    (text : List Char) : element.run ended (blank ++ text) = element.run ended text := by
  induction blank with
  | nil => rfl
  | cons c blank ih =>
    rw [List.cons_append, run_space (spaces c List.mem_cons_self)]
    exact ih fun d member => spaces d (List.mem_cons_of_mem _ member)

/-- A name that no quote ends. -/
theorem run_name_open {text : List Char} (noQuote : '"' ∉ text) (start : List Char)
    (ended : Bool) : (name start).run ended text = [] := by
  induction text generalizing start ended with
  | nil => rfl
  | cons c text ih =>
    have other : c ≠ '"' := fun same => noQuote (same ▸ List.mem_cons_self)
    rw [run_cons, next, emits, if_neg other, if_neg other,
      ih fun member => noQuote (List.mem_cons_of_mem _ member)]
    rfl

/-- A name is what stands up to the next quote. -/
theorem run_name {word : List Char} (noQuote : '"' ∉ word) (start : List Char) (ended : Bool)
    (text : List Char) :
    (name start).run ended (word ++ '"' :: text) =
      String.ofList (start ++ word) :: rest.run (ended || '}' ∈ word) text := by
  induction word generalizing start ended with
  | nil =>
    rw [List.nil_append, run_cons, next, emits, if_pos rfl, if_pos rfl, List.append_nil]
    rfl
  | cons c word ih =>
    have other : c ≠ '"' := fun same => noQuote (same ▸ List.mem_cons_self)
    rw [List.cons_append, run_cons, next, emits, if_neg other, if_neg other,
      ih fun member => noQuote (List.mem_cons_of_mem _ member), List.append_assoc]
    simp [Bool.or_assoc, eq_comm]

end ScanMode

/-! ## The loops as a run -/

theorem dropWhile_append_eq {p : Char → Bool} (text : List Char) :
    ∃ run, text = run ++ text.dropWhile p ∧ (∀ c ∈ run, p c = true) ∧
      ∀ c ∈ (text.dropWhile p).head?, p c = false := by
  refine ⟨text.takeWhile p, List.takeWhile_append_dropWhile.symm,
    fun c member => List.mem_takeWhile_imp member, fun c member => ?_⟩
  have found := List.head?_dropWhile_not p text
  rw [Option.mem_def.mp member] at found
  simpa using found

/-- The text from the first `c` on, if there is one. -/
theorem strchr_cases (text : List Char) (c : Char) :
    c ∉ text ∧ strchr text c = [] ∨
      ∃ before after, text = before ++ c :: after ∧ c ∉ before ∧ strchr text c = c :: after := by
  obtain ⟨run, same, all, stops⟩ := dropWhile_append_eq (p := (· ≠ c)) text
  have absent : c ∉ run := fun member => by simpa using all c member
  change text = run ++ strchr text c at same
  change ∀ d ∈ (strchr text c).head?, _ at stops
  cases found : strchr text c with
  | nil =>
    rw [found, List.append_nil] at same
    exact Or.inl ⟨same ▸ absent, rfl⟩
  | cons d after =>
    rw [found] at same stops
    have here : d = c := by simpa using stops d rfl
    subst here
    exact Or.inr ⟨run, after, same, absent, rfl⟩

theorem nextElement_run (p : List Char) : ∃ used, p = used ++ nextElement p ∧
    ∀ ended, ScanMode.rest.run ended p =
      ScanMode.element.run (ended || '}' ∈ used) (nextElement p) := by
  obtain ⟨run, same, all, stops⟩ := dropWhile_append_eq (p := fun c => c ≠ ',' ∧ c ≠ ']') p
  have others : ∀ c ∈ run, c ≠ ',' ∧ c ≠ ']' := fun c member => by simpa using all c member
  unfold nextElement
  split
  · rename_i q found
    rw [found] at same
    refine ⟨run ++ [','], by rw [same]; simp, fun ended => ?_⟩
    rw [same, ScanMode.run_rests others]
    simp [ScanMode.run_cons, ScanMode.next, ScanMode.emits]
  · rename_i noComma
    refine ⟨run, same, fun ended => ?_⟩
    nth_rewrite 1 [same]
    rw [ScanMode.run_rests others]
    cases found : p.dropWhile fun c => c ≠ ',' ∧ c ≠ ']' with
    | nil => rfl
    | cons c q =>
      rw [found] at stops
      have close : c = ']' := by
        have stop := stops c rfl
        by_contra other
        refine noComma q (found.trans ?_)
        simp [other] at stop
        rw [stop]
      rw [close]
      rfl

theorem strchr_absent {before : List Char} {c : Char} (absent : c ∉ before) (after : List Char) :
    strchr (before ++ after) c = strchr after c :=
  List.dropWhile_append_of_pos fun d member => by
    simpa using fun same : d = c => absent (same ▸ member)

theorem strchr_present {before : List Char} {c : Char} (present : c ∈ before)
    (after : List Char) : after.length < (strchr (before ++ after) c).length := by
  obtain ⟨first, last, rfl, absent⟩ := List.eq_append_cons_of_mem present
  have found : strchr (c :: (last ++ after)) c = c :: (last ++ after) := by
    simp [strchr]
  rw [List.append_assoc, strchr_absent absent, List.cons_append, found, List.length_cons,
    List.length_append]
  omega

theorem takeWhile_before {c : Char} {before : List Char} (absent : c ∉ before)
    (after : List Char) : (before ++ c :: after).takeWhile (· ≠ c) = before := by
  rw [List.takeWhile_append_of_pos fun d member => by
    simpa using fun same : d = c => absent (same ▸ member)]
  simp

/-- A text that opens with no blank and closes no array. -/
def AtElement (p : List Char) : Prop := ∀ c ∈ p.head?, isSpace c = false ∧ c ≠ ']'

theorem quotedModule_other {p : List Char} (other : p.head? ≠ some '"') :
    quotedModule p = ([], p) := by
  unfold quotedModule
  split
  · exact absurd rfl other
  · rfl

theorem quotedModule_open {start : List Char} (absent : '"' ∉ start) :
    quotedModule ('"' :: start) = ([], []) := by
  have none_ : strchr start '"' = [] := by
    rcases strchr_cases start '"' with ⟨-, none_⟩ | ⟨word, p, rfl, -, -⟩
    · exact none_
    · simp at absent
  rw [quotedModule, none_]

theorem quotedModule_closed {word : List Char} (absent : '"' ∉ word) (p : List Char) :
    quotedModule ('"' :: (word ++ '"' :: p)) = ([String.ofList word], p) := by
  have found : strchr (word ++ '"' :: p) '"' = '"' :: p := strchr_absent absent _
  rw [quotedModule, found, takeWhile_before absent]

theorem quotedModule_run {p : List Char} (visible : AtElement p) :
    ∃ used, p = used ++ (quotedModule p).2 ∧ ∀ ended, ScanMode.element.run ended p =
      (quotedModule p).1 ++ ScanMode.rest.run (ended || '}' ∈ used) (quotedModule p).2 := by
  by_cases quote : p.head? = some '"'
  · obtain ⟨start, rfl⟩ := List.head?_eq_some_iff.mp quote
    have enter : ∀ ended, ScanMode.element.run ended ('"' :: start) =
        (ScanMode.name []).run ended start := fun ended => by
      rw [ScanMode.run_cons]
      simp [ScanMode.next, ScanMode.emits, isSpace]
    rcases strchr_cases start '"' with ⟨absent, -⟩ | ⟨word, p, rfl, absent, -⟩
    · rw [quotedModule_open absent]
      refine ⟨'"' :: start, by simp, fun ended => ?_⟩
      rw [enter, ScanMode.run_name_open absent]
      rfl
    · rw [quotedModule_closed absent]
      refine ⟨'"' :: word ++ ['"'], by simp, fun ended => ?_⟩
      rw [enter, ScanMode.run_name absent]
      simp
  · rw [quotedModule_other quote]
    refine ⟨[], rfl, fun ended => ?_⟩
    cases p with
    | nil => rfl
    | cons c p =>
      obtain ⟨noSpace, noClose⟩ := visible c rfl
      have noQuote : c ≠ '"' := fun same => quote (same ▸ rfl)
      by_cases comma : c = ','
      · subst comma
        simp [ScanMode.run_cons, ScanMode.next, ScanMode.emits]
      · rw [ScanMode.run_cons, ScanMode.next, if_neg (by simp [noSpace, comma]), if_neg noClose,
          if_neg noQuote]
        simp [ScanMode.run_rest ⟨comma, noClose⟩, ScanMode.emits]

theorem nextElement_shorter {p : List Char} (visible : AtElement p) (some_ : p ≠ []) :
    (nextElement (quotedModule p).2).length < p.length := by
  have shorter : ∀ q, (nextElement q).length ≤ q.length := fun q => by
    obtain ⟨used, same, -⟩ := nextElement_run q
    have length := congrArg List.length same
    rw [List.length_append] at length
    omega
  by_cases quote : p.head? = some '"'
  · obtain ⟨start, rfl⟩ := List.head?_eq_some_iff.mp quote
    obtain ⟨used, same, -⟩ := quotedModule_run visible
    have taken : used ≠ [] := by
      rintro rfl
      have same : '"' :: start = (quotedModule ('"' :: start)).2 := same
      rcases strchr_cases start '"' with ⟨absent, -⟩ | ⟨word, q, rfl, absent, -⟩
      · rw [quotedModule_open absent] at same
        cases same
      · rw [quotedModule_closed absent] at same
        have length := congrArg List.length same
        simp only [List.length_cons, List.length_append] at length
        omega
    have length := congrArg List.length same
    have nonempty := List.length_pos_of_ne_nil taken
    have le := shorter (quotedModule ('"' :: start)).2
    rw [List.length_append] at length
    omega
  · rw [quotedModule_other quote]
    cases p with
    | nil => exact absurd rfl some_
    | cons c p =>
      obtain ⟨-, noClose⟩ := visible c rfl
      by_cases comma : c = ','
      · subst comma
        simp [nextElement]
      · have skip : nextElement (c :: p) = nextElement p := by
          simp [nextElement, comma, noClose]
        rw [skip]
        exact Nat.lt_succ_of_le (shorter p)

/-- The loop over one array is the run up to the end of the array. -/
theorem scanArray_run {rounds : Nat} {p : List Char} (enough : p.length ≤ rounds) :
    ∃ used, p = used ++ (scanArray rounds p).2 ∧ ∀ ended, ScanMode.element.run ended p =
      (scanArray rounds p).1 ++
        ScanMode.search.run (ended || '}' ∈ used) (scanArray rounds p).2 := by
  induction rounds generalizing p with
  | zero =>
    have nothing := List.eq_nil_of_length_eq_zero (Nat.le_zero.mp enough)
    subst nothing
    exact ⟨[], rfl, fun ended => rfl⟩
  | succ rounds ih =>
    obtain ⟨blank, same, spaces, stops⟩ := dropWhile_append_eq (p := isSpace) p
    have noBrace : '}' ∉ blank := fun member => by cases spaces _ member
    have skip : ∀ ended, ScanMode.element.run ended p =
        ScanMode.element.run ended (p.dropWhile isSpace) := fun ended => by
      nth_rewrite 1 [same]
      exact ScanMode.run_spaces spaces ended _
    cases p with
    | nil => exact ⟨[], rfl, fun ended => rfl⟩
    | cons c p =>
    rw [scanArray.eq_3 _ _ (List.cons_ne_nil c p)]
    split
    · rename_i q found
      refine ⟨blank, same.trans (by rw [found]), fun ended => ?_⟩
      rw [skip, found]
      simp [ScanMode.run_cons, ScanMode.next, ScanMode.emits, isSpace, noBrace]
    · rename_i noClose
      generalize dropped : (c :: p).dropWhile isSpace = q at *
      have visible : AtElement q := by
        intro d member
        refine ⟨stops d member, ?_⟩
        rintro rfl
        obtain ⟨rest, rfl⟩ := List.head?_eq_some_iff.mp member
        exact noClose rest rfl
      obtain ⟨used, sameQ, reads⟩ := quotedModule_run visible
      obtain ⟨used', sameN, skips⟩ := nextElement_run (quotedModule q).2
      have shorter : (nextElement (quotedModule q).2).length ≤ rounds := by
        by_cases nothing : q = []
        · subst nothing
          exact Nat.zero_le _
        · have less := nextElement_shorter visible nothing
          have length := congrArg List.length same
          rw [List.length_append] at length
          omega
      obtain ⟨used'', sameR, others⟩ := ih shorter
      refine ⟨blank ++ (used ++ (used' ++ used'')), ?_, fun ended => ?_⟩
      · rw [List.append_assoc, List.append_assoc, List.append_assoc, ← sameR, ← sameN, ← sameQ]
        exact same
      · rw [skip, reads, skips, others]
        simp [noBrace, Bool.or_assoc]

theorem strchr_length (text : List Char) (c : Char) : (strchr text c).length ≤ text.length :=
  (List.dropWhile_sublist _).length_le

/-- The loop over the arrays is the run, where there is an end marker. -/
theorem scanArrays_run {rounds : Nat} {pre p : List Char} (marked : '}' ∈ pre ++ p)
    (enough : p.length ≤ rounds) :
    scanArrays true (strchr (pre ++ p) '}') rounds (strchr p '[') =
      ScanMode.search.run ('}' ∈ pre) p := by
  induction rounds generalizing pre p with
  | zero =>
    have nothing := List.eq_nil_of_length_eq_zero (Nat.le_zero.mp enough)
    subst nothing
    rfl
  | succ rounds ih =>
    rcases strchr_cases p '[' with ⟨absent, none_⟩ | ⟨before, after, rfl, absent, found⟩
    · have skip := ScanMode.run_searches absent ('}' ∈ pre) []
      rw [List.append_nil] at skip
      rw [skip, none_, scanArrays, if_neg fun open_ => Nat.not_lt_zero _ open_.2]
      rfl
    · rw [ScanMode.run_searches absent, found, scanArrays, ← List.append_assoc]
      by_cases passed : '}' ∈ pre ++ before
      · have ended : (decide ('}' ∈ pre) || decide ('}' ∈ before)) = true := by
          simpa using passed
        have later := strchr_present passed ('[' :: after)
        rw [if_neg (by omega), ended, ScanMode.run_ended]
      · have ended : (decide ('}' ∈ pre) || decide ('}' ∈ before)) = false := by
          simpa using passed
        have ahead : '}' ∈ after := by
          rw [← List.append_assoc] at marked
          rcases List.mem_append.mp marked with behind | here
          · exact absurd behind passed
          · simpa using here
        have marker : strchr (pre ++ before ++ '[' :: after) '}' = strchr after '}' := by
          rw [strchr_absent passed]
          rfl
        have some_ : strchr after '}' ≠ [] := by
          rcases strchr_cases after '}' with ⟨no, -⟩ | ⟨_, _, -, -, yes⟩
          · exact absurd ahead no
          · rw [yes]
            exact List.cons_ne_nil _ _
        have length := strchr_length after '}'
        rw [if_pos ⟨marker ▸ some_, by rw [marker, List.length_cons]; omega⟩, ended]
        have rounds' : after.length ≤ ('[' :: after).length := Nat.le_succ _
        obtain ⟨used, same, reads⟩ := scanArray_run rounds'
        have enter : ScanMode.search.run false ('[' :: after) =
            ScanMode.element.run false after := rfl
        rw [enter, reads]
        simp only [List.tail_cons, if_true]
        have shorter := congrArg List.length same
        have whole : pre ++ before ++ '[' :: after = pre ++ before ++ '[' :: used ++
            (scanArray ('[' :: after).length after).2 := by
          nth_rewrite 1 [same]
          simp
        rw [whole, ih (by rw [← whole]; simpa using Or.inr (Or.inr ahead))]
        · have later : decide ('}' ∈ pre ++ before ++ '[' :: used) = decide ('}' ∈ used) := by
            rw [decide_eq_decide, List.mem_append]
            simp [passed]
          rw [later, Bool.false_or]
        · simp only [List.length_append, List.length_cons] at enough shorter ⊢
          omega

theorem scanValue_categorised (inside : List Char) (marked : '}' ∈ inside) :
    scanValue ('{' :: inside) = ScanMode.search.run false inside := by
  have marked' : '}' ∈ [] ++ '{' :: inside := List.mem_cons_of_mem _ marked
  exact scanArrays_run marked' (Nat.le_refl _)

theorem scanValue_flat (inside : List Char) (closed : ']' ∈ inside) :
    scanValue ('[' :: inside) = ScanMode.element.run true inside := by
  have rounds : inside.length ≤ ('[' :: inside).length := Nat.le_succ _
  obtain ⟨used, same, reads⟩ := scanArray_run rounds
  rw [reads, Bool.true_or, ScanMode.run_ended, List.append_nil]
  have marker : strchr ('[' :: inside) ']' = strchr inside ']' := rfl
  have some_ : strchr inside ']' ≠ [] := by
    rcases strchr_cases inside ']' with ⟨no, -⟩ | ⟨_, _, -, -, yes⟩
    · exact absurd closed no
    · rw [yes]
      exact List.cons_ne_nil _ _
  have length := strchr_length inside ']'
  change (if strchr inside ']' ≠ [] ∧ (strchr inside ']').length < ('[' :: inside).length then _
    else _) = _
  rw [if_pos ⟨some_, by rw [List.length_cons]; omega⟩]
  rfl

end ElmWrap
