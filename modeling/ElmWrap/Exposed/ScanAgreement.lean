import ElmWrap.Exposed.ScanText

/-!
# When the scanners agree with the reader

The scanners look for the key by its text, take a name up to the next quote, and let the
first closing brace end the categories. So they agree with the parser where no name is
written with an escape, and no name of a category has a brace or leaves a bracket open.
-/

namespace ElmWrap

open Lib.JsonText

/-! ## Names that do no harm -/

/-- No category lists a module. -/
def Silent (categories : List Category) : Prop := ∀ category ∈ categories, category.modules = []

/-- What the names of the categories do is no harm: behind a closing brace nothing is found, in
a bracket that stays open the first module is lost, and the quote of the next name can end
another one. -/
def CategoriesHarmless (tail : List Char) : List Category → Prop
  | [] => True
  | category :: categories =>
    if '}' ∈ aheadOfOpen category.raw then Silent (category :: categories)
    else if leftOpen category.raw = [] then
      (∀ m ∈ category.modules, m.Plain) ∧ CategoriesHarmless tail categories
    else if beforeElement category.raw then
      category.modules = [] ∧ categories = [] ∧ '"' ∉ tail
    else
      category.modules = [] ∧
        if '}' ∈ category.raw then Silent categories else CategoriesHarmless tail categories

/-- The scanners find the modules, once they have found the key. -/
def ExposedMember.Harmless (tail : List Char) : ExposedMember → Prop
  | flat modules => ∀ m ∈ modules, m.Plain
  | categorised categories => CategoriesHarmless tail categories

/-! ## Categories -/

/-- What is found from the name of a category on. -/
theorem run_category (category : Category) {trail lead inner : List Char} (after : Blank trail)
    (before : Blank lead) (listed : Listed ModuleText category.modules inner)
    (others : List Char) :
    ScanMode.search.run false ('"' :: (category.raw ++
        '"' :: (trail ++ ':' :: (lead ++ '[' :: (inner ++ ']' :: others))))) =
      if '}' ∈ aheadOfOpen category.raw then []
      else if leftOpen category.raw = [] then
        category.modules.map ModuleName.written ++ ScanMode.search.run false others
      else if beforeElement category.raw then
        (ScanMode.name []).run ('}' ∈ category.raw)
          (trail ++ ':' :: (lead ++ '[' :: (inner ++ ']' :: others)))
      else (category.modules.map ModuleName.written).tail ++
        ScanMode.search.run ('}' ∈ category.raw) others := by
  have enter := @run_body _ _ category.body (.search, false) search_outside
    ('"' :: (trail ++ ':' :: (lead ++ '[' :: (inner ++ ']' :: others))))
  have between : Inert (trail ++ ':' :: lead) :=
    after.inert.append (.cons (by decide) before.inert)
  have same : trail ++ ':' :: (lead ++ '[' :: (inner ++ ']' :: others)) =
      (trail ++ ':' :: lead) ++ '[' :: (inner ++ ']' :: others) := by simp
  have passes : ∀ ended text, ScanMode.search.run ended ('"' :: text) =
      ScanMode.search.run ended text := fun ended text => by simp [ScanMode.run_search]
  rw [passes]
  change ScanMode.search.run false _ = _ at enter
  rw [enter, skims_name]
  split
  · exact ScanMode.run_ended _
  split
  · have bracket : ∀ text, ScanMode.search.run false ('[' :: text) =
        ScanMode.element.run false text := fun text => rfl
    change ScanMode.search.run false _ = _
    rw [passes, same, between.run_search, bracket, run_modules listed]
  split
  · have quote : ∀ ended text, ScanMode.element.run ended ('"' :: text) =
        (ScanMode.name []).run ended text := fun ended text => by
      simp [ScanMode.run_cons, ScanMode.next, ScanMode.emits, Lib.Scan.isSpace]
    exact quote _ _
  · change ScanMode.rest.run _ _ = _
    rw [ScanMode.run_rest (by decide), same, between.run_rest, run_modules_rest listed]
    simp

/-! ## What cannot be a list of modules -/

/-- Either no list of modules, or too short for one that is longer. -/
def Lacking (found values : List String) : Prop :=
  (∃ s ∈ found, ':' ∈ s.toList) ∨ found.length ≤ values.length

theorem ModuleName.value_noColon (m : ModuleName) : ':' ∉ m.value.toList := by
  rw [m.value_eq, String.toList_ofList]
  exact fun member => isModuleChar_ne (m.chars _ member) (by rfl : isModuleChar ':' = false) rfl

/-- The modules of categories as a reader has them. -/
def valuesOf (categories : List Category) : List String :=
  (categories.flatMap Category.modules).map ModuleName.value

theorem valuesOf_cons (category : Category) (categories : List Category) :
    valuesOf (category :: categories) =
      category.modules.map ModuleName.value ++ valuesOf categories := by
  rw [valuesOf, List.flatMap_cons, List.map_append]
  rfl

theorem valuesOf_noColon {categories : List Category} {s : String}
    (member : s ∈ valuesOf categories) : ':' ∉ s.toList := by
  obtain ⟨m, -, rfl⟩ := List.mem_map.mp member
  exact m.value_noColon

theorem valuesOf_nil_iff {categories : List Category} :
    valuesOf categories = [] ↔ Silent categories := by
  rw [valuesOf, List.map_eq_nil_iff, List.flatMap_eq_nil_iff]
  rfl

theorem Lacking.append {first values found others : List String}
    (short : first.length ≤ values.length) (lacks : Lacking found others) :
    Lacking (first ++ found) (values ++ others) := by
  rcases lacks with ⟨s, member, colon⟩ | shorter
  · exact Or.inl ⟨s, List.mem_append_right _ member, colon⟩
  · refine Or.inr ?_
    rw [List.length_append, List.length_append]
    exact Nat.add_le_add short shorter

/-- A list that has lost its first name is whole only where it is empty. -/
theorem lost_agrees {first values found others : List String}
    (same : first.length = values.length) (noColon : ∀ s ∈ values ++ others, ':' ∉ s.toList)
    (lacks : Lacking found others) :
    first.tail ++ found = values ++ others ↔ values = [] ∧ found = others := by
  constructor
  · intro whole
    have length := congrArg List.length whole
    rw [List.length_append, List.length_append, List.length_tail, same] at length
    have shorter : found.length ≤ others.length := by
      rcases lacks with ⟨s, member, colon⟩ | short
      · exact absurd colon (noColon s (whole ▸ List.mem_append_right _ member))
      · exact short
    have none_ : values.length = 0 := by omega
    have noValues := List.eq_nil_of_length_eq_zero none_
    have noFirst := List.eq_nil_of_length_eq_zero (same.trans none_)
    subst noValues noFirst
    exact ⟨rfl, whole⟩
  · rintro ⟨rfl, rfl⟩
    rw [List.eq_nil_of_length_eq_zero same]
    rfl

/-- There is a quote where there is a module. -/
theorem quote_mem_listed {modules : List ModuleName} {inner : List Char}
    (listed : Listed ModuleText modules inner) : '"' ∈ inner ↔ modules ≠ [] := by
  rcases listed with ⟨rfl, blank⟩ | separated
  · exact iff_of_false (fun member => (blank.inert _ member).1 rfl) (fun some_ => some_ rfl)
  · cases separated with
    | one before here after =>
      rw [here]
      exact iff_of_true (by simp) (List.cons_ne_nil _ _)
    | more before here after others =>
      rw [here]
      exact iff_of_true (by simp) (List.cons_ne_nil _ _)

/-- A name that opens behind the name of a category has its colon, if it ends. -/
theorem run_colon {before text : List Char} (inert : Inert before) (ended : Bool) :
    (ScanMode.name []).run ended (before ++ ':' :: text) = [] ∧ '"' ∉ text ∨
      (∃ s ∈ (ScanMode.name []).run ended (before ++ ':' :: text), ':' ∈ s.toList) ∧
        '"' ∈ text := by
  have noQuote : '"' ∉ before ++ [':'] := by
    rw [List.mem_append, not_or]
    exact ⟨fun member => (inert _ member).1 rfl, by decide⟩
  by_cases quote : '"' ∈ text
  · obtain ⟨word, others, rfl, absent⟩ := List.eq_append_cons_of_mem quote
    have same : before ++ ':' :: (word ++ '"' :: others) =
        (before ++ [':'] ++ word) ++ '"' :: others := by simp
    have noQuote' : '"' ∉ before ++ [':'] ++ word := by
      rw [List.mem_append, not_or]
      exact ⟨noQuote, absent⟩
    refine Or.inr ⟨?_, quote⟩
    rw [same, ScanMode.run_name noQuote']
    exact ⟨_, List.mem_cons_self, by simp⟩
  · refine Or.inl ⟨ScanMode.run_name_open ?_ _ _, quote⟩
    rw [← List.singleton_append, ← List.append_assoc, List.mem_append, not_or]
    exact ⟨noQuote, quote⟩

/-- A category before others, of which `found` is found. -/
theorem category_agrees (category : Category) {categories : List Category}
    {trail lead inner tail others : List Char} (after : Blank trail) (before : Blank lead)
    (listed : Listed ModuleText category.modules inner)
    (agrees : ScanMode.search.run false others = valuesOf categories ↔
      CategoriesHarmless tail categories)
    (lacks : Lacking (ScanMode.search.run false others) (valuesOf categories))
    (quotes : '"' ∈ others ↔ categories ≠ [] ∨ '"' ∈ tail) :
    let found := ScanMode.search.run false ('"' :: (category.raw ++
      '"' :: (trail ++ ':' :: (lead ++ '[' :: (inner ++ ']' :: others)))))
    (found = valuesOf (category :: categories) ↔
        CategoriesHarmless tail (category :: categories)) ∧
      Lacking found (valuesOf (category :: categories)) := by
  intro found
  have noColon : ∀ s ∈ category.modules.map ModuleName.value ++ valuesOf categories,
      ':' ∉ s.toList := fun s member => by
    rw [← valuesOf_cons] at member
    exact valuesOf_noColon member
  have run : found = _ := run_category category after before listed others
  have same : (category.modules.map ModuleName.written).length =
      (category.modules.map ModuleName.value).length := by simp
  rw [run, CategoriesHarmless, valuesOf_cons]
  split
  · rw [eq_comm, ← valuesOf_cons, valuesOf_nil_iff]
    exact ⟨Iff.rfl, Or.inr (Nat.zero_le _)⟩
  split
  · refine ⟨?_, ?_⟩
    · rw [← map_written_eq, ← agrees]
      exact ⟨fun whole => List.append_inj whole same, fun both => by rw [both.1, both.2]⟩
    · exact lacks.append same.le
  split
  · have opens : '"' ∈ lead ++ '[' :: (inner ++ ']' :: others) ↔
        category.modules ≠ [] ∨ categories ≠ [] ∨ '"' ∈ tail := by
      have noLead : '"' ∉ lead := fun member => (before.inert _ member).1 rfl
      rw [← quote_mem_listed listed, ← quotes]
      simp [noLead]
    rcases run_colon after.inert (decide ('}' ∈ category.raw)) with
      ⟨nothing, noQuote⟩ | ⟨⟨s, member, colon⟩, quote⟩
    · rw [opens, not_or, not_or, not_not, not_not] at noQuote
      obtain ⟨noModules, rfl, noQuote⟩ := noQuote
      rw [nothing, noModules]
      exact ⟨iff_of_true rfl ⟨rfl, rfl, noQuote⟩, Or.inr (Nat.zero_le _)⟩
    · refine ⟨iff_of_false ?_ ?_, Or.inl ⟨s, member, colon⟩⟩
      · intro whole
        exact noColon s (whole ▸ member) colon
      · rintro ⟨noModules, rfl, noQuote⟩
        exact (opens.mp quote).elim (· noModules) (fun either => either.elim (· rfl) noQuote)
  · have shorter : (category.modules.map ModuleName.written).tail.length ≤
        (category.modules.map ModuleName.value).length := by
      rw [List.length_tail, same]
      exact Nat.sub_le _ _
    have onlyLost : ∀ rest, Lacking rest (valuesOf categories) →
        ((category.modules.map ModuleName.written).tail ++ rest =
          category.modules.map ModuleName.value ++ valuesOf categories ↔
            category.modules = [] ∧ rest = valuesOf categories) := fun rest lacks => by
      rw [lost_agrees same noColon lacks, List.map_eq_nil_iff]
    by_cases brace : '}' ∈ category.raw
    · have nothing : Lacking [] (valuesOf categories) := Or.inr (Nat.zero_le _)
      rw [decide_eq_true brace, ScanMode.run_ended, if_pos brace, onlyLost [] nothing,
        ← valuesOf_nil_iff, @eq_comm _ [] (valuesOf categories)]
      exact ⟨Iff.rfl, nothing.append shorter⟩
    · rw [decide_eq_false brace, if_neg brace, onlyLost _ lacks, agrees]
      exact ⟨Iff.rfl, lacks.append shorter⟩

/-- Behind the last category nothing is found. -/
theorem run_behind {trail : List Char} (blank : Blank trail) (tail : List Char) :
    ScanMode.search.run false (trail ++ '}' :: tail) = [] := by
  rw [blank.inert.run_search, ScanMode.run_search (by decide)]
  exact ScanMode.run_ended tail

/-- The modules of the categories are found where the names do no harm. -/
theorem categories_agree {categories : List Category} {inner : List Char}
    (separated : Separated CategoryText categories inner) (tail : List Char) :
    (ScanMode.search.run false (inner ++ '}' :: tail) = valuesOf categories ↔
        CategoriesHarmless tail categories) ∧
      Lacking (ScanMode.search.run false (inner ++ '}' :: tail)) (valuesOf categories) ∧
      '"' ∈ inner := by
  induction separated with
  | @one category lead text trail before here after =>
    obtain ⟨trail', lead', list, after', before', ⟨inner, listed, rfl⟩, rfl⟩ := here
    have nothing := run_behind after tail
    have quotes : '"' ∈ trail ++ '}' :: tail ↔ ([] : List Category) ≠ [] ∨ '"' ∈ tail := by
      have noTrail : '"' ∉ trail := fun member => (after.inert _ member).1 rfl
      simp [noTrail]
    have same : lead ++ ('"' :: category.raw ++ '"' :: trail' ++
        ':' :: (lead' ++ ('[' :: inner ++ [']']))) ++ trail ++ '}' :: tail =
        lead ++ '"' :: (category.raw ++ '"' :: (trail' ++ ':' :: (lead' ++
          '[' :: (inner ++ ']' :: (trail ++ '}' :: tail))))) := by simp
    rw [same, before.inert.run_search]
    have none_ : ScanMode.search.run false (trail ++ '}' :: tail) = valuesOf [] ↔
        CategoriesHarmless tail [] := iff_of_true nothing trivial
    have lacks : Lacking (ScanMode.search.run false (trail ++ '}' :: tail)) (valuesOf []) := by
      rw [nothing]
      exact Or.inr (Nat.zero_le _)
    obtain ⟨agrees, lacks⟩ := category_agrees category after' before' listed none_ lacks quotes
    exact ⟨agrees, lacks, by simp⟩
  | @more category categories lead text trail texts before here after others ih =>
    obtain ⟨trail', lead', list, after', before', ⟨inner, listed, rfl⟩, rfl⟩ := here
    obtain ⟨agrees, lacks, quote⟩ := ih
    have skip : ScanMode.search.run false (trail ++ ',' :: (texts ++ '}' :: tail)) =
        ScanMode.search.run false (texts ++ '}' :: tail) := by
      rw [after.inert.run_search, ScanMode.run_search (by decide)]
      rfl
    have some_ : categories ≠ [] := by
      cases others <;> exact List.cons_ne_nil _ _
    have quotes : '"' ∈ trail ++ ',' :: (texts ++ '}' :: tail) ↔
        categories ≠ [] ∨ '"' ∈ tail := iff_of_true (by simp [quote]) (Or.inl some_)
    have same : lead ++ ('"' :: category.raw ++ '"' :: trail' ++
        ':' :: (lead' ++ ('[' :: inner ++ [']']))) ++ trail ++ ',' :: texts ++ '}' :: tail =
        lead ++ '"' :: (category.raw ++ '"' :: (trail' ++ ':' :: (lead' ++
          '[' :: (inner ++ ']' :: (trail ++ ',' :: (texts ++ '}' :: tail)))))) := by simp
    rw [← skip] at agrees lacks
    rw [same, before.inert.run_search]
    obtain ⟨agrees, lacks⟩ := category_agrees category after' before' listed agrees lacks quotes
    exact ⟨agrees, lacks, by simp⟩

/-- From its value on, the scanners find the modules where they do no harm. -/
theorem scanValue_agrees {exposed : ExposedMember} {value : List Char}
    (written : ExposedText exposed value) (tail : List Char) :
    scanValue (value ++ tail) = exposed.modules.map ModuleName.value ↔ exposed.Harmless tail := by
  cases exposed with
  | flat modules =>
    obtain ⟨inner, listed, rfl⟩ := written
    have same : '[' :: inner ++ [']'] ++ tail = '[' :: (inner ++ ']' :: tail) := by simp
    rw [same, scanValue_flat _ (by simp), run_modules listed, ScanMode.run_ended,
      List.append_nil]
    exact map_written_eq
  | categorised categories =>
    obtain ⟨inner, listed, rfl⟩ := written
    have same : '{' :: inner ++ ['}'] ++ tail = '{' :: (inner ++ '}' :: tail) := by simp
    rw [same, scanValue_categorised _ (by simp)]
    rcases listed with ⟨rfl, blank⟩ | separated
    · rw [run_behind blank]
      exact iff_of_true rfl trivial
    · exact (categories_agree separated tail).1

/-! ## The key -/

namespace PackageElmJson

/-- The first place that reads like the key is the key, or there is none. -/
def KeyFirst (json : PackageElmJson) : Prop :=
  strstr exposedKey json.text = none ∨
    json.keyRaw = "exposed-modules".toList ∧ strstr exposedKey json.text = some json.fromKey

/-- The scanners find what they look for. -/
def Harmless (json : PackageElmJson) : Prop :=
  if strstr exposedKey json.text = none then json.exposed.modules = []
  else json.exposed.Harmless json.tail

theorem exposedText_opens {exposed : ExposedMember} {value : List Char}
    (written : ExposedText exposed value) : ∃ c rest, value = c :: rest ∧ (c = '[' ∨ c = '{') := by
  cases exposed with
  | flat modules =>
    obtain ⟨inner, -, rfl⟩ := written
    exact ⟨'[', _, rfl, Or.inl rfl⟩
  | categorised categories =>
    obtain ⟨inner, -, rfl⟩ := written
    exact ⟨'{', _, rfl, Or.inr rfl⟩

/-- Behind the key the scanners come to its value. -/
theorem scanExposedModules_key {json : PackageElmJson}
    (key : json.keyRaw = "exposed-modules".toList)
    (found : strstr exposedKey json.text = some json.fromKey) :
    scanExposedModules json.text = scanValue (json.value ++ json.tail) := by
  have quoted : exposedKey = '"' :: json.keyRaw ++ ['"'] := by
    rw [key]
    rfl
  have fromKey : json.fromKey = exposedKey ++
      ((json.gap ++ ':' :: json.gap') ++ (json.value ++ json.tail)) := by
    rw [PackageElmJson.fromKey, quoted]
    simp
  have skipped : ∀ c ∈ json.gap ++ ':' :: json.gap',
      decide (c = ':' ∨ Lib.Scan.isSpace c = true) = true := by
    intro c member
    rw [decide_eq_true_eq]
    rcases List.mem_append.mp member with here | member
    · exact Or.inr (json.gapBlank.spaces c here)
    · exact (List.mem_cons.mp member).imp id (json.gapBlank'.spaces c)
  have stops : ∀ c ∈ (json.value ++ json.tail).head?,
      decide (c = ':' ∨ Lib.Scan.isSpace c = true) = false := by
    obtain ⟨d, rest, same, bracket⟩ := exposedText_opens json.written
    intro c member
    rw [same] at member
    cases member
    rcases bracket with rfl | rfl <;> rfl
  rw [scanExposedModules, found]
  dsimp only
  rw [fromKey, List.drop_left, (takeWhile_span skipped stops).2]

/-- Where the key comes first, the modules are found where the names do no harm. -/
theorem scanExposedModules_agrees {json : PackageElmJson} (first : json.KeyFirst) :
    scanExposedModules json.text = json.exposed.modules.map ModuleName.value ↔
      json.Harmless := by
  unfold Harmless
  rcases first with none_ | ⟨key, found⟩
  · rw [if_pos none_, scanExposedModules, none_]
    exact eq_comm.trans List.map_eq_nil_iff
  · rw [if_neg (by rw [found]; exact Option.some_ne_none _), scanExposedModules_key key found]
    exact scanValue_agrees json.written json.tail

end PackageElmJson

/-! ## Modules that are listed twice -/

theorem exposedModulesAdd_new {em : List String} {module : String} (new : module ∉ em) :
    exposedModulesAdd em module = em ++ [module] := if_neg new

theorem exposedModulesAdd_nodup {em : List String} (nodup : em.Nodup) (module : String) :
    (exposedModulesAdd em module).Nodup := by
  unfold exposedModulesAdd
  split
  · exact nodup
  · rename_i new
    refine List.nodup_append.mpr ⟨nodup, List.pairwise_singleton _ _, fun s member t last => ?_⟩
    rintro rfl
    exact new (List.mem_singleton.mp last ▸ member)

theorem foldl_exposedModulesAdd_nodup {em : List String} (nodup : em.Nodup)
    (modules : List String) : (modules.foldl exposedModulesAdd em).Nodup := by
  induction modules generalizing em with
  | nil => exact nodup
  | cons module modules ih => exact ih (exposedModulesAdd_nodup nodup module)

theorem foldl_exposedModulesAdd {em modules : List String} (nodup : (em ++ modules).Nodup) :
    modules.foldl exposedModulesAdd em = em ++ modules := by
  induction modules generalizing em with
  | nil => exact (List.append_nil em).symm
  | cons module modules ih =>
    have same : em ++ module :: modules = em ++ [module] ++ modules := by simp
    have new : module ∉ em := fun member =>
      (List.nodup_append.mp nodup).2.2 module member module List.mem_cons_self rfl
    rw [same] at nodup
    rw [List.foldl_cons, exposedModulesAdd_new new, ih nodup, same]

/-- The generator of the documentation keeps a list as it is where nothing is repeated. -/
theorem docs_keeps_iff {modules : List String} :
    modules.foldl exposedModulesAdd [] = modules ↔ modules.Nodup := by
  constructor
  · intro same
    rw [← same]
    exact foldl_exposedModulesAdd_nodup List.nodup_nil modules
  · intro nodup
    exact foldl_exposedModulesAdd nodup

/-! ## Agreement -/

/-- Where the key comes first, both scanners get the list of the reader exactly where the names
do no harm, and no module is listed twice. -/
theorem exposedModules_agree_iff (json : PackageElmJson) (first : json.KeyFirst) :
    elmParseExposedModules (cjsonParse json.text) = some (docsParseElmJson json.text).2 ∧
        elmParseExposedModules (cjsonParse json.text) = some (scanExposedModules json.text) ↔
      json.Harmless ∧ (json.exposed.modules.map ModuleName.value).Nodup := by
  rw [json.elmParseExposedModules_text, Option.some_inj, Option.some_inj,
    ← json.scanExposedModules_agrees first, ← docs_keeps_iff, docsParseElmJson]
  constructor
  · rintro ⟨docs, check⟩
    exact ⟨check.symm, by rw [check]; exact docs.symm.trans check⟩
  · rintro ⟨check, keeps⟩
    rw [check]
    exact ⟨keeps.symm, rfl⟩

/-- A name as it is written. -/
def ModuleName.plain (word : List Char) (chars : ∀ c ∈ word, isModuleChar c = true) :
    ModuleName :=
  ⟨word, word, Body.plain fun c member =>
    ⟨isModuleChar_ne (chars c member) rfl, isModuleChar_ne (chars c member) rfl⟩, chars⟩

/-- A category that lists one module. -/
def oneCategory (name : List Char) (plain : ∀ c ∈ name, c ≠ '"' ∧ c ≠ '\\') : Category :=
  ⟨name, name, Body.plain plain, [.plain ['B'] (List.forall_mem_singleton.mpr rfl)]⟩

theorem oneCategory_written (name : List Char) (plain : ∀ c ∈ name, c ≠ '"' ∧ c ≠ '\\') :
    ExposedText (.categorised [oneCategory name plain])
      ('{' :: ('"' :: name ++ ['"', ':', '[', '"', 'B', '"', ']']) ++ ['}']) := by
  have modules : Listed ModuleText (oneCategory name plain).modules ['"', 'B', '"'] :=
    Or.inr (@Separated.one _ _ _ [] ['"', 'B', '"'] [] Blank.nil rfl Blank.nil)
  have category : CategoryText (oneCategory name plain)
      ('"' :: name ++ ['"', ':', '[', '"', 'B', '"', ']']) :=
    ⟨[], [], ['[', '"', 'B', '"', ']'], Blank.nil, Blank.nil, ⟨_, modules, rfl⟩,
      by simp [oneCategory]⟩
  have separated := @Separated.one _ _ _ [] _ [] Blank.nil category Blank.nil
  rw [List.nil_append, List.append_nil] at separated
  exact ⟨_, Or.inr separated, rfl⟩

theorem exposedModules_plain : ∀ c ∈ "exposed-modules".toList, c ≠ '"' ∧ c ≠ '\\' := by
  have all : ("exposed-modules".toList.all fun c => c ≠ '"' ∧ c ≠ '\\') = true := rfl
  exact fun c member => of_decide_eq_true (List.all_eq_true.mp all c member)

/-- A document with this category only. -/
def oneCategoryJson (name : List Char) (plain : ∀ c ∈ name, c ≠ '"' ∧ c ≠ '\\') :
    PackageElmJson where
  start := []
  before := []
  opening := []
  keyRaw := "exposed-modules".toList
  gap := []
  gap' := []
  exposed := .categorised [oneCategory name plain]
  value := '{' :: ('"' :: name ++ ['"', ':', '[', '"', 'B', '"', ']']) ++ ['}']
  after := []
  closing := []
  finish := []
  startBlank := Blank.nil
  ahead := Or.inl ⟨rfl, Blank.nil⟩
  first := List.forall_mem_nil _
  key := Body.plain exposedModules_plain
  gapBlank := Blank.nil
  gapBlank' := Blank.nil
  written := oneCategory_written name plain
  behind := Or.inl ⟨rfl, Blank.nil⟩
  finishBlank := Blank.nil

/-- Closed brackets in the name of a category do no harm. -/
theorem exposedModules_agree_closed :
    elmParseExposedModules (cjsonParse (oneCategoryJson ['[', ']'] (by simp)).text) =
        some (docsParseElmJson (oneCategoryJson ['[', ']'] (by simp)).text).2 ∧
      elmParseExposedModules (cjsonParse (oneCategoryJson ['[', ']'] (by simp)).text) =
        some (scanExposedModules (oneCategoryJson ['[', ']'] (by simp)).text) := by
  refine (exposedModules_agree_iff _ (Or.inr ⟨rfl, rfl⟩)).mpr ⟨?_, List.pairwise_singleton _ _⟩
  have found : strstr exposedKey (oneCategoryJson ['[', ']'] (by simp)).text ≠ none :=
    Option.some_ne_none _
  have closed : aheadOfOpen ['[', ']'] = ['[', ']'] ∧ leftOpen ['[', ']'] = [] := ⟨rfl, rfl⟩
  have plain : ∀ m ∈ (oneCategory ['[', ']'] (by simp)).modules, m.Plain := by
    intro m member
    rw [List.mem_singleton.mp member]
    change '\\' ∉ ['B']
    simp
  unfold PackageElmJson.Harmless
  rw [if_neg found]
  change CategoriesHarmless _ [oneCategory ['[', ']'] (by simp)]
  rw [CategoriesHarmless]
  change (if '}' ∈ aheadOfOpen ['[', ']'] then _ else if leftOpen ['[', ']'] = [] then _ else _)
  rw [closed.1, closed.2, if_neg (by simp), if_pos rfl]
  exact ⟨plain, trivial⟩

/-- Behind a brace in the name of a category nothing is found. -/
theorem exposedModules_disagree :
    ∃ json : PackageElmJson, elmParseExposedModules (cjsonParse json.text) = some ["B"] ∧
      (docsParseElmJson json.text).2 = [] ∧ scanExposedModules json.text = [] :=
  ⟨oneCategoryJson ['}'] (by simp),
    (oneCategoryJson ['}'] (by simp)).elmParseExposedModules_text, rfl, rfl⟩

end ElmWrap
