import ElmWrap.ElmJson.Formatter

/-!
# An `elm.json` that is written again and again

What the formatter writes of a tree of the shapes it expects, with strings that need no
escapes, is a text of the standard's grammar. The members that are no dependencies stay
as they are over any number of writes.
-/

namespace ElmWrap

open Lib (Json)
open Lib.JsonText (Blank Body Separated Listed)
open Lib.StrictJson

/-! ## Strings -/

/-- A string that stands for itself between quotes, in UTF-8. -/
structure Printable (text : String) : Prop where
  encoded : ValidUtf8 text.toList
  plain : ∀ c ∈ text.toList, ' ' ≤ c ∧ c ≠ '"' ∧ c ≠ '\\'

/-- A character of ASCII that needs no escape. -/
def isPrintable (c : Char) : Bool := ' ' ≤ c && c.toNat < 0x80 && c ≠ '"' && c ≠ '\\'

theorem printable_of_all {text : String} (all : text.toList.all isPrintable = true) :
    Printable text := by
  have each : ∀ c ∈ text.toList, ' ' ≤ c ∧ c.toNat < 0x80 ∧ c ≠ '"' ∧ c ≠ '\\' := by
    intro c on
    have here := List.all_eq_true.mp all c on
    simp only [isPrintable, Bool.and_eq_true, decide_eq_true_eq] at here
    exact ⟨here.1.1.1, here.1.1.2, here.1.2, here.2⟩
  exact ⟨.ascii fun c on => (each c on).2.1, fun c on => ⟨(each c on).1, (each c on).2.2⟩⟩

theorem isUnreserved_printable {c : Char} (unreserved : isUnreserved c = true) :
    isPrintable c = true := by
  have range : 32 ≤ c.toNat ∧ c.toNat < 128 ∧ c.toNat ≠ 34 ∧ c.toNat ≠ 92 := by
    unfold isUnreserved at unreserved
    delta Char.isUpper Char.isLower at unreserved
    simp only [Bool.or_eq_true, Char.isDigit, Bool.and_eq_true, decide_eq_true_eq,
      UInt32.le_iff_toNat_le] at unreserved
    rcases unreserved with (((((upper | lower) | digit) | dash) | dot) | underscore) | tilde
    · simp at upper
      omega
    · simp at lower
      omega
    · simp at digit
      omega
    · subst dash
      decide
    · subst dot
      decide
    · subst underscore
      decide
    · subst tilde
      decide
  obtain ⟨visible, small, noQuote, noSlash⟩ := range
  have quote : c ≠ '"' := fun same => noQuote (same ▸ rfl)
  have slash : c ≠ '\\' := fun same => noSlash (same ▸ rfl)
  have after : ' ' ≤ c := UInt32.le_iff_toNat_le.mpr visible
  unfold isPrintable
  simp [after, small, quote, slash]

theorem printable_full (name : PackageName) : Printable name.full := by
  refine printable_of_all (List.all_eq_true.mpr fun c on => ?_)
  rw [name.full_toList, List.mem_append, List.mem_cons] at on
  rcases on with author | rfl | project
  · have valid := name.validAuthor
    simp only [isValidUrlPathComponentLike, Bool.and_eq_true] at valid
    exact isUnreserved_printable (List.all_eq_true.mp valid.2 c author)
  · decide
  · have valid := name.validProject
    simp only [isValidElmProjectName, Bool.and_eq_true] at valid
    have allowed := List.all_eq_true.mp valid.1.2 c project
    refine isUnreserved_printable ?_
    simp only [Bool.or_eq_true] at allowed
    unfold isUnreserved
    rcases allowed with (lower | digit) | dash
    · simp [lower]
    · simp [digit]
    · simp [dash]

theorem stringText_quoted {text : String} (printable : Printable text) :
    StringText text (quoted text) :=
  ⟨text.toList, Body.plain fun c on => (printable.plain c on).2, fun c on =>
    (printable.plain c on).1, fun on => absurd (printable.plain _ on).1 (by decide), rfl⟩

theorem validUtf8_quoted {text : String} (printable : Printable text) :
    ValidUtf8 (quoted text) :=
  .cons (by decide) (printable.encoded.append (.cons (by decide) .nil))

/-! ## Lines -/

theorem blank_newline : Blank ['\n'] := List.forall_mem_singleton.mpr rfl

theorem blank_indent (level : Nat) : Blank (indent level) := by
  intro c on
  unfold indent at on
  obtain ⟨four, member, on⟩ := List.mem_flatten.mp on
  rw [(List.mem_replicate.mp member).2] at on
  have space : c = ' ' := by simpa using on
  rw [space]
  rfl

section Lines

variable {α : Type} {P : α → List Char → Prop} {f : α → List Char} {items : List α}

/-- Items in lines are items with commas between them. -/
theorem separated_formatLines (some_ : items ≠ []) (each : ∀ a ∈ items, P a (f a)) (level : Nat)
    {lead tail : List Char} (before : Blank lead) (after : Blank tail) :
    Separated P items (lead ++ formatLines level (items.map f) ++ tail) := by
  induction items generalizing lead with
  | nil => exact absurd rfl some_
  | cons a items ih =>
    obtain ⟨here, later⟩ := List.forall_mem_cons.mp each
    have first := before.append (blank_indent level)
    cases items with
    | nil =>
      have last : Blank ('\n' :: tail) := blank_newline.append after
      have one := Separated.one first here last
      simpa [formatLines] using one
    | cons b items =>
      have others := ih (List.cons_ne_nil _ _) later blank_newline
      have more := Separated.more first here Blank.nil others
      simpa [formatLines] using more

theorem listed_formatBlock (each : ∀ a ∈ items, P a (f a)) (level : Nat) :
    Listed P items ('\n' :: formatLines (level + 1) (items.map f) ++ indent level) := by
  cases items with
  | nil => exact Or.inl ⟨rfl, blank_newline.append (blank_indent level)⟩
  | cons a items =>
    exact Or.inr (separated_formatLines (List.cons_ne_nil _ _) each (level + 1)
      blank_newline (blank_indent level))

theorem validUtf8_formatLines (each : ∀ a ∈ items, ValidUtf8 (f a)) (level : Nat) :
    ValidUtf8 (formatLines level (items.map f)) := by
  induction items with
  | nil => exact .nil
  | cons a items ih =>
    obtain ⟨here, later⟩ := List.forall_mem_cons.mp each
    have line := (ValidUtf8.blank (blank_indent level)).append here
    cases items with
    | nil => exact line.append (.cons (by decide) .nil)
    | cons b items => exact line.append (.cons (by decide) (.cons (by decide) (ih later)))

theorem validUtf8_formatBlock (each : ∀ a ∈ items, ValidUtf8 (f a)) (level : Nat)
    {first last : Char} (opens : first.toNat < 0x80) (closes : last.toNat < 0x80) :
    ValidUtf8 (formatBlock level first last (items.map f)) := by
  have lines := validUtf8_formatLines each (level + 1)
  refine .cons opens (.cons (by decide) ?_)
  refine (lines.append (.blank (blank_indent level))).append (.cons closes .nil)

end Lines

/-! ## Values -/

/-- A text of the value, in UTF-8. -/
structure Formats (depth : Nat) (value : Json) (text : List Char) : Prop where
  written : Written depth value text
  encoded : ValidUtf8 text

theorem formats_quoted {text : String} (printable : Printable text) (depth : Nat) :
    Formats depth (.string text) (quoted text) :=
  ⟨.atom (.string (stringText_quoted printable)), validUtf8_quoted printable⟩

/-- An object whose names and values are written as texts of them is written as a text of it. -/
theorem formats_object {α : Type} {items : List α} {name : α → String} {value : α → Json}
    {text : α → List Char} {depth : Nat} (names : ∀ a ∈ items, Printable (name a))
    (values : ∀ a ∈ items, Formats depth (value a) (text a)) (level : Nat) :
    Formats (depth + 1) (.object (items.map fun a => (name a, value a)))
      (formatBlock level '{' '}' (items.map fun a => formatMember (name a) (text a))) := by
  constructor
  · refine Or.inr ?_
    have listed := listed_formatBlock (P := fun a text => MemberText (Written depth)
      (name a, value a) text) (f := fun a => formatMember (name a) (text a))
      (fun a on => ⟨_, [], [' '], _, stringText_quoted (names a on), Blank.nil, Blank.space,
        (values a on).written, by simp [formatMember]⟩) level
    have mapped := listed.map (Q := MemberText (Written depth)) (fun a => (name a, value a))
      fun a text here => here
    have object := Nested.object mapped
    simpa [formatBlock] using object
  · refine validUtf8_formatBlock (fun a on => ?_) level (by decide) (by decide)
    exact (validUtf8_quoted (names a on)).append
      (.cons (by decide) (.cons (by decide) (values a on).encoded))

theorem formats_array {items : List String} (each : ∀ item ∈ items, Printable item)
    (depth level : Nat) :
    Formats (depth + 1) (.array (items.map .string))
      (formatBlock level '[' ']' (items.map quoted)) := by
  constructor
  · refine Or.inr ?_
    have listed := listed_formatBlock (P := fun item text => Written depth (.string item) text)
      (f := quoted)
      (fun item on => (formats_quoted (each item on) depth).written) level
    have mapped := listed.map (Q := Written depth) Json.string fun item text here => here
    have array := Nested.array mapped
    simpa [formatBlock] using array
  · exact validUtf8_formatBlock (fun item on => validUtf8_quoted (each item on)) level (by decide)
      (by decide)

/-- A value that the formatter expects inside of an object. -/
inductive PlainInner : Json → Prop
  | string {value : String} (printable : Printable value) : PlainInner (.string value)
  | object {members : List (String × String)}
      (each : ∀ member ∈ members, Printable member.1 ∧ Printable member.2) :
      PlainInner (.object (members.map fun member => (member.1, .string member.2)))

/-- A value that it expects in the root. -/
inductive PlainValue : Json → Prop
  | string {value : String} (printable : Printable value) : PlainValue (.string value)
  | array {items : List String} (each : ∀ item ∈ items, Printable item) :
      PlainValue (.array (items.map .string))
  | object {members : List (String × Json)}
      (each : ∀ member ∈ members, Printable member.1 ∧ PlainInner member.2) :
      PlainValue (.object members)

theorem members_eta (members : List (String × Json)) :
    (members.map fun member => (member.1, member.2)) = members := List.map_id members

theorem formats_inner {value : Json} (plain : PlainInner value) (depth : Nat) :
    Formats (depth + 1) value (formatInner value) := by
  cases plain with
  | string printable => exact formats_quoted printable (depth + 1)
  | @object members each =>
    cases members with
    | nil =>
      have braces : ValidUtf8 ['{', '}'] := .cons (by decide) (.cons (by decide) .nil)
      exact ⟨Or.inr (.object (Or.inl ⟨rfl, Blank.nil⟩)), braces⟩
    | cons member members =>
      have text : formatInner (.object ((member :: members).map fun member =>
          (member.1, .string member.2))) = formatBlock 2 '{' '}'
            ((member :: members).map fun member => formatMember member.1 (quoted member.2)) := by
        change formatBlock 2 '{' '}' (((member :: members).map fun member =>
          (member.1, Json.string member.2)).map fun member =>
            formatMember member.1 (quoted (valuestring member.2))) = _
        rw [List.map_map]
        rfl
      rw [text]
      exact formats_object (fun member on => (each member on).1)
        (fun member on => formats_quoted (each member on).2 depth) 2

theorem formats_value {value : Json} (plain : PlainValue value) (depth : Nat) :
    Formats (depth + 2) value (formatValue value) := by
  cases plain with
  | string printable => exact formats_quoted printable (depth + 2)
  | array each =>
    have array := formats_array each (depth + 1) 1
    have items : ∀ items : List String, (items.map Json.string).map formatItem =
        items.map quoted := by
      intro items
      rw [List.map_map]
      rfl
    unfold formatValue
    dsimp only
    rw [items]
    exact array
  | object each =>
    have object := formats_object (fun member on => (each member on).1)
      (fun member on => formats_inner (each member on).2 depth) 1
    rwa [members_eta] at object

/-! ## The root -/

/-- A member as a child of its object. -/
def asChild (member : String × Json) : Option String × Json := (some member.1, member.2)

theorem children_object (members : List (String × Json)) :
    (Json.object members).children = members.map asChild := rfl

variable {members : List (String × Json)} {elmJson : ElmJson}

/-- What the formatter writes of an object of expected values is a document of it. -/
theorem document_formatted (plain : ∀ member ∈ members, Printable member.1 ∧ PlainValue member.2)
    (depth : Nat) :
    Document (depth + 3) (.object members) (writeElmJsonFormatted (members.map asChild)) := by
  have values : ∀ member ∈ members, Formats (depth + 2) member.2 (formatValue member.2) :=
    fun member on => formats_value (plain member on).2 depth
  have object := formats_object (fun member on => (plain member on).1) values 0
  rw [members_eta] at object
  have text : writeElmJsonFormatted (members.map asChild) = formatBlock 0 '{' '}'
      (members.map fun member => formatMember member.1 (formatValue member.2)) ++ ['\n'] := by
    unfold writeElmJsonFormatted
    rw [List.map_map]
    rfl
  rw [text]
  refine ⟨object.encoded.append (.cons (by decide) .nil), [], _, ['\n'], Blank.nil, ?_,
    blank_newline, rfl⟩
  exact object.written

theorem parse_formatted (plain : ∀ member ∈ members, Printable member.1 ∧ PlainValue member.2) :
    cjsonParse (writeElmJsonFormatted (members.map asChild)) = some (.object members) :=
  cjsonParse_document (document_formatted plain 997).text

/-- The name is the same up to case. -/
def called (name : String) (member : String × Json) : Bool := lowered member.1 = lowered name

theorem isCalled_asChild (name : String) : isCalled name ∘ asChild = called name := by
  funext member
  unfold isCalled asChild called
  simp

theorem setObjectItem_members (members : List (String × Json)) (name : String) (value : Json) :
    setObjectItem (members.map asChild) name value =
      (members.eraseP (called name) ++ [(name, value)]).map asChild := by
  unfold setObjectItem
  rw [List.eraseP_map, isCalled_asChild, List.map_append]
  rfl

theorem getObjectItem_members (members : List (String × Json)) (name : String) :
    getObjectItem (.object members) name = (members.find? (called name)).map Prod.snd := by
  unfold getObjectItem
  rw [children_object, List.find?_map]
  have same : (fun child : Option String × Json => decide (child.1.map lowered =
      some (lowered name))) ∘ asChild = called name := isCalled_asChild name
  rw [same, Option.map_map]
  rfl

/-! ## The other members -/

/-- The members that a write leaves as they are. -/
def keptMembers (members : List (String × Json)) : List (String × Json) :=
  (members.eraseP (called "dependencies")).eraseP (called "test-dependencies")

/-- The members after a write. -/
def storedMembers (members : List (String × Json)) (elmJson : ElmJson) : List (String × Json) :=
  keptMembers members ++ [("dependencies", dependenciesJson elmJson.sortMaps),
    ("test-dependencies", testDependenciesJson elmJson.sortMaps)]

/-- The members that are no dependencies are of the shapes that the formatter expects, and none of
them goes by the name of one in other letters. -/
structure PlainFile (members : List (String × Json)) : Prop where
  plain : ∀ member ∈ keptMembers members, Printable member.1 ∧ PlainValue member.2
  once : ∀ member ∈ keptMembers members,
    called "dependencies" member = false ∧ called "test-dependencies" member = false

theorem setObjectItem_twice (members : List (String × Json)) (deps tests : Json) :
    setObjectItem (setObjectItem (members.map asChild) "dependencies" deps) "test-dependencies"
        tests =
      (keptMembers members ++ [("dependencies", deps), ("test-dependencies", tests)]).map
        asChild := by
  have other : [("dependencies", deps)].eraseP (called "test-dependencies") =
      [("dependencies", deps)] := List.eraseP_of_forall_not (by
    intro member on
    rw [List.mem_singleton.mp on]
    have apart : lowered "dependencies" ≠ lowered "test-dependencies" := by decide
    exact fun is => apart (of_decide_eq_true is))
  rw [setObjectItem_members, setObjectItem_members]
  congr 1
  unfold keptMembers
  rw [List.eraseP_append]
  split
  · rw [List.append_assoc]
    rfl
  · rename_i none_
    have same : (members.eraseP (called "dependencies")).eraseP (called "test-dependencies") =
        members.eraseP (called "dependencies") := by
      refine List.eraseP_of_forall_not fun member on is => none_ ?_
      exact List.any_eq_true.mpr ⟨member, on, is⟩
    rw [other, same, List.append_assoc]
    rfl

/-! ## One write -/

/-- An `ElmJson` whose entries the reader takes back. -/
structure ElmJson.Storable (elmJson : ElmJson) : Prop where
  printable : ∀ field ∈ elmJson.type.maps, ∀ p ∈ (elmJson.maps field).packages,
    Printable p.version
  short : ∀ field ∈ elmJson.type.maps, ∀ p ∈ (elmJson.maps field).packages,
    p.version.toList.length < maxElmJsonVersionValueLength
  few : ∀ field ∈ elmJson.type.maps,
    (elmJson.maps field).packages.length ≤ maxElmJsonDependencyEntries

theorem ElmJson.Storable.sortMaps (storable : elmJson.Storable) :
    elmJson.sortMaps.Storable where
  printable := fun field used p on =>
    storable.printable field used p (ElmJson.mem_sortMaps.mp on)
  short := fun field used p on => storable.short field used p (ElmJson.mem_sortMaps.mp on)
  few := by
    intro field used
    have used : field ∈ elmJson.type.maps := used
    have sorted : elmJson.sortMaps.maps field = packageMapSort (elmJson.maps field) := if_pos used
    rw [sorted]
    exact (Lib.Keyed.perm_sortBy (elmJson.maps field).packages).length_eq.trans_le
      (storable.few field used)

theorem plainInner_packages {map : PackageMap}
    (printable : ∀ p ∈ map.packages, Printable p.version) : PlainInner (packagesJson map) := by
  have members : map.packages.map (fun p => (p.name.full, Json.string p.version)) =
      (map.packages.map fun p => (p.name.full, p.version)).map
        fun member => (member.1, .string member.2) := by
    rw [List.map_map]
    rfl
  unfold packagesJson
  rw [members]
  refine .object fun member on => ?_
  obtain ⟨p, listed, rfl⟩ := List.mem_map.mp on
  exact ⟨printable_full p.name, printable p listed⟩

theorem plainValue_packages {map : PackageMap}
    (printable : ∀ p ∈ map.packages, Printable p.version) : PlainValue (packagesJson map) := by
  refine .object fun member on => ?_
  obtain ⟨p, listed, rfl⟩ := List.mem_map.mp on
  exact ⟨printable_full p.name, .string (printable p listed)⟩

theorem printable_direct : Printable "direct" ∧ Printable "indirect" :=
  ⟨printable_of_all (by decide), printable_of_all (by decide)⟩

theorem plainValue_pair {direct indirect : PackageMap}
    (first : ∀ p ∈ direct.packages, Printable p.version)
    (second : ∀ p ∈ indirect.packages, Printable p.version) :
    PlainValue (.object [("direct", packagesJson direct),
      ("indirect", packagesJson indirect)]) := by
  refine .object fun member on => ?_
  rcases List.mem_cons.mp on with rfl | on
  · exact ⟨printable_direct.1, plainInner_packages first⟩
  · rw [List.mem_singleton.mp on]
    exact ⟨printable_direct.2, plainInner_packages second⟩

theorem plainValue_dependencies (storable : elmJson.Storable) :
    PlainValue (dependenciesJson elmJson) ∧ PlainValue (testDependenciesJson elmJson) := by
  have printable := storable.printable
  unfold dependenciesJson testDependenciesJson
  cases type : elmJson.type with
  | application =>
    rw [type] at printable
    exact ⟨plainValue_pair (printable _ (by decide)) (printable _ (by decide)),
      plainValue_pair (printable _ (by decide)) (printable _ (by decide))⟩
  | package =>
    rw [type] at printable
    exact ⟨plainValue_packages (printable _ (by decide)),
      plainValue_packages (printable _ (by decide))⟩

theorem called_dependencies (value : Json) :
    called "dependencies" ("dependencies", value) = true ∧
      called "test-dependencies" ("dependencies", value) = false ∧
      called "dependencies" ("test-dependencies", value) = false ∧
      called "test-dependencies" ("test-dependencies", value) = true := by
  have apart : lowered "dependencies" ≠ lowered "test-dependencies" := by decide
  unfold called
  exact ⟨decide_eq_true rfl, decide_eq_false apart, decide_eq_false apart.symm, decide_eq_true rfl⟩

theorem keptMembers_append {kept : List (String × Json)}
    (once : ∀ member ∈ kept,
      called "dependencies" member = false ∧ called "test-dependencies" member = false)
    (deps tests : Json) :
    keptMembers (kept ++ [("dependencies", deps), ("test-dependencies", tests)]) = kept := by
  have none_ : ∀ name, (∀ member ∈ kept, called name member = false) → ∀ rest,
      (kept ++ rest).eraseP (called name) = kept ++ rest.eraseP (called name) := by
    intro name once rest
    refine List.eraseP_append_right rest fun member on => ?_
    rw [once member on]
    exact Bool.false_ne_true
  unfold keptMembers
  rw [none_ _ fun member on => (once member on).1,
    List.eraseP_cons_of_pos (called_dependencies deps).1,
    none_ _ fun member on => (once member on).2,
    List.eraseP_cons_of_pos (called_dependencies tests).2.2.2, List.append_nil]

/-- A later write leaves the same members as they are. -/
theorem keptMembers_stored (plain : PlainFile members) (elmJson : ElmJson) :
    keptMembers (storedMembers members elmJson) = keptMembers members :=
  keptMembers_append plain.once _ _

theorem PlainFile.stored (plain : PlainFile members) (elmJson : ElmJson) :
    PlainFile (storedMembers members elmJson) := by
  constructor
  · rw [keptMembers_stored plain]
    exact plain.plain
  · rw [keptMembers_stored plain]
    exact plain.once

theorem PlainFile.printable (plain : PlainFile members) (storable : elmJson.Storable) :
    ∀ member ∈ storedMembers members elmJson, Printable member.1 ∧ PlainValue member.2 := by
  obtain ⟨deps, tests⟩ := plainValue_dependencies storable.sortMaps
  have names : Printable "dependencies" ∧ Printable "test-dependencies" :=
    ⟨printable_of_all (by decide), printable_of_all (by decide)⟩
  intro member on
  rcases List.mem_append.mp on with kept | new
  · exact plain.plain member kept
  · rcases List.mem_cons.mp new with rfl | new
    · exact ⟨names.1, deps⟩
    · rw [List.mem_singleton.mp new]
      exact ⟨names.2, tests⟩

/-- What a write leaves. -/
def storedText (members : List (String × Json)) (elmJson : ElmJson) : List Char :=
  writeElmJsonFormatted ((storedMembers members elmJson).map asChild)

theorem elmJsonWrite_eq {file : List Char} (parsed : cjsonParse file = some (.object members))
    (elmJson : ElmJson) :
    elmJsonWrite elmJson file =
      if maxElmJsonFileBytes < file.length then none else some (storedText members elmJson) := by
  unfold elmJsonWrite storedText
  rw [parsed, Option.map_some]
  dsimp only
  rw [children_object, setObjectItem_twice]
  rfl

/-! ## Reading back -/

theorem packageMapAdd_new {map : PackageMap} {p : Package}
    (new : packageMapFind map p.name = none) :
    ∃ next, packageMapAdd map p.name p.version = some next ∧
      next.packages = map.packages ++ [p] := by
  unfold packageMapAdd
  rw [dif_pos new]
  exact ⟨_, rfl, rfl⟩

/-- The entries that are read after some others. -/
theorem readMembers_entries {map done : PackageMap} {rest : List Package}
    (split : map.packages = done.packages ++ rest)
    (few : map.packages.length ≤ maxElmJsonDependencyEntries)
    (short : ∀ p ∈ map.packages, p.version.toList.length < maxElmJsonVersionValueLength) :
    readMembers done.packages.length done
      (rest.map fun p => (p.name.full, .string p.version)) = some map := by
  induction rest generalizing done with
  | nil =>
    rw [List.append_nil] at split
    have same : map = done := by
      cases map
      cases done
      cases split
      rfl
    rw [same]
    rfl
  | cons p rest ih =>
    have listed : p ∈ map.packages := by
      rw [split]
      exact List.mem_append_right _ List.mem_cons_self
    have new : packageMapFind done p.name = none := by
      have distinct := map.nodup
      rw [split, List.map_append, List.map_cons] at distinct
      have apart := (List.nodup_append.mp distinct).2.2
      rw [packageMapFind, List.find?_eq_none]
      intro other on same
      exact apart _ (List.mem_map_of_mem on) _ List.mem_cons_self (of_decide_eq_true same)
    obtain ⟨next, added, packages⟩ := packageMapAdd_new new
    have room : done.packages.length + 1 ≤ maxElmJsonDependencyEntries := by
      rw [split, List.length_append, List.length_cons] at few
      omega
    have rest_ : map.packages = next.packages ++ rest := by
      rw [split, packages, List.append_assoc]
      rfl
    have later := ih rest_
    rw [packages, List.length_append, List.length_singleton] at later
    rw [List.map_cons]
    unfold readMembers
    rw [if_neg (not_lt.mpr room)]
    dsimp only
    rw [if_neg (not_le.mpr (short p listed)), parsePackageName_full]
    dsimp only
    rw [added]
    exact later

theorem readMap_packages {map : PackageMap}
    (few : map.packages.length ≤ maxElmJsonDependencyEntries)
    (short : ∀ p ∈ map.packages, p.version.toList.length < maxElmJsonVersionValueLength) :
    readMap (some (packagesJson map)) = some map := by
  have whole : map.packages = packageMapCreate.packages ++ map.packages := rfl
  exact readMembers_entries whole few short

/-- Taking out an item that is not looked for changes nothing. -/
theorem find?_eraseP {α : Type} {p q : α → Bool} (apart : ∀ a, p a = true → q a = false)
    (items : List α) : (items.eraseP q).find? p = items.find? p := by
  induction items with
  | nil => rfl
  | cons a items ih =>
    by_cases taken : q a = true
    · rw [List.eraseP_cons_of_pos taken, List.find?_cons_of_neg]
      intro looked
      rw [apart a looked] at taken
      cases taken
    · rw [List.eraseP_cons_of_neg taken]
      by_cases looked : p a = true
      · rw [List.find?_cons_of_pos looked, List.find?_cons_of_pos looked]
      · rw [List.find?_cons_of_neg looked, List.find?_cons_of_neg looked, ih]

theorem called_apart {name other : String} (apart : lowered name ≠ lowered other)
    {member : String × Json} (is : called name member = true) : called other member = false := by
  have same : lowered member.1 = lowered name := of_decide_eq_true is
  exact decide_eq_false fun also => apart (same.symm.trans also)

/-- The other members are read as before. -/
theorem getObjectItem_other {name : String} (deps : lowered name ≠ lowered "dependencies")
    (tests : lowered name ≠ lowered "test-dependencies") (members : List (String × Json))
    (elmJson : ElmJson) :
    getObjectItem (.object (storedMembers members elmJson)) name =
      getObjectItem (.object members) name := by
  have new : ([("dependencies", dependenciesJson elmJson.sortMaps),
      ("test-dependencies", testDependenciesJson elmJson.sortMaps)] :
        List (String × Json)).find? (called name) = none := by
    rw [List.find?_eq_none]
    intro member on
    rcases List.mem_cons.mp on with rfl | on
    · exact fun is => deps (of_decide_eq_true is).symm
    · rw [List.mem_singleton.mp on]
      exact fun is => tests (of_decide_eq_true is).symm
  rw [getObjectItem_members, getObjectItem_members]
  unfold storedMembers keptMembers
  rw [List.find?_append, new, Option.or_none, find?_eraseP fun _ => called_apart tests,
    find?_eraseP fun _ => called_apart deps]

/-- The dependencies are the ones that were written. -/
theorem getObjectItem_stored (plain : PlainFile members) (elmJson : ElmJson) :
    getObjectItem (.object (storedMembers members elmJson)) "dependencies" =
        some (dependenciesJson elmJson.sortMaps) ∧
      getObjectItem (.object (storedMembers members elmJson)) "test-dependencies" =
        some (testDependenciesJson elmJson.sortMaps) := by
  have none_ : ∀ name, (∀ member ∈ keptMembers members, called name member = false) →
      (keptMembers members).find? (called name) = none := by
    intro name once
    rw [List.find?_eq_none]
    intro member on
    rw [once member on]
    exact Bool.false_ne_true
  obtain ⟨same, apart, -⟩ := called_dependencies (dependenciesJson elmJson.sortMaps)
  obtain ⟨-, -, -, last⟩ := called_dependencies (testDependenciesJson elmJson.sortMaps)
  rw [getObjectItem_members, getObjectItem_members]
  unfold storedMembers
  rw [List.find?_append, List.find?_append, none_ _ fun member on => (plain.once member on).1,
    none_ _ fun member on => (plain.once member on).2, Option.none_or, Option.none_or,
    List.find?_cons_of_pos same, List.find?_cons_of_neg (by rw [apart]; exact Bool.false_ne_true),
    List.find?_cons_of_pos last]
  exact ⟨rfl, rfl⟩

theorem getObjectItem_pair (direct indirect : Json) :
    getObjectItem (.object [("direct", direct), ("indirect", indirect)]) "direct" = some direct ∧
      getObjectItem (.object [("direct", direct), ("indirect", indirect)]) "indirect" =
        some indirect := by
  have apart : lowered "direct" ≠ lowered "indirect" := by decide
  have here : ∀ name value, called name (name, value) = true := fun _ _ => decide_eq_true rfl
  have other : ¬ called "indirect" ("direct", direct) = true :=
    fun is => apart (of_decide_eq_true is)
  rw [getObjectItem_members, getObjectItem_members, List.find?_cons_of_pos (here _ _),
    List.find?_cons_of_neg other, List.find?_cons_of_pos (here _ _)]
  exact ⟨rfl, rfl⟩

/-- What is read of an `ElmJson` that has been written: its maps are sorted, and the ones of the
other type of project are empty. -/
def ElmJson.stored (elmJson : ElmJson) : ElmJson where
  type := elmJson.type
  maps := fun field =>
    if field ∈ elmJson.type.maps then packageMapSort (elmJson.maps field) else packageMapCreate

theorem ElmJson.Storable.readMap (storable : elmJson.Storable) {field : ElmJsonMap}
    (used : field ∈ elmJson.type.maps) :
    ElmWrap.readMap (some (packagesJson (elmJson.sortMaps.maps field))) =
      some (elmJson.stored.maps field) := by
  have sorted : elmJson.sortMaps.maps field = elmJson.stored.maps field := by
    unfold ElmJson.sortMaps ElmJson.stored
    dsimp only
    rw [if_pos used, if_pos used]
  rw [← sorted]
  exact readMap_packages (storable.sortMaps.few field used) (storable.sortMaps.short field used)

theorem readApplicationMaps_stored (plain : PlainFile members) (storable : elmJson.Storable)
    (type : elmJson.type = .application) :
    readApplicationMaps (.object (storedMembers members elmJson)) = some elmJson.stored.maps := by
  obtain ⟨deps, tests⟩ := getObjectItem_stored plain elmJson
  have sorted : elmJson.sortMaps.type = .application := type
  have maps : ∀ field ∈ ElmProjectType.application.maps,
      readMap (some (packagesJson (elmJson.sortMaps.maps field))) =
        some (elmJson.stored.maps field) := by
    intro field on
    rw [← type] at on
    exact storable.readMap on
  unfold dependenciesJson at deps
  unfold testDependenciesJson at tests
  rw [sorted] at deps tests
  unfold readApplicationMaps
  simp only [deps, tests, Option.bind_some, (getObjectItem_pair _ _).1,
    (getObjectItem_pair _ _).2, maps .dependenciesDirect (by decide),
    maps .dependenciesIndirect (by decide), maps .dependenciesTestDirect (by decide),
    maps .dependenciesTestIndirect (by decide), Option.bind_eq_bind]
  congr 1
  funext field
  unfold ElmJson.stored
  rw [type]
  cases field <;> rfl

theorem readPackageMaps_stored (plain : PlainFile members) (storable : elmJson.Storable)
    (type : elmJson.type = .package) :
    readPackageMaps (.object (storedMembers members elmJson)) = some elmJson.stored.maps := by
  obtain ⟨deps, tests⟩ := getObjectItem_stored plain elmJson
  have sorted : elmJson.sortMaps.type = .package := type
  have maps : ∀ field ∈ ElmProjectType.package.maps,
      readMap (some (packagesJson (elmJson.sortMaps.maps field))) =
        some (elmJson.stored.maps field) := by
    intro field on
    rw [← type] at on
    exact storable.readMap on
  unfold dependenciesJson at deps
  unfold testDependenciesJson at tests
  rw [sorted] at deps tests
  unfold readPackageMaps
  simp only [deps, tests, Option.bind_some, maps .packageDependencies (by decide),
    maps .packageTestDependencies (by decide), Option.bind_eq_bind]
  congr 1
  funext field
  unfold ElmJson.stored
  rw [type]
  cases field <;> rfl

theorem stringItem_stored {name : String} (deps : lowered name ≠ lowered "dependencies")
    (tests : lowered name ≠ lowered "test-dependencies") (members : List (String × Json))
    (elmJson : ElmJson) :
    stringItem (.object (storedMembers members elmJson)) name =
      stringItem (.object members) name := by
  unfold stringItem
  rw [getObjectItem_other deps tests]

/-- The file that a write has left is read as what was written, and the rest as before. -/
theorem elmJsonRead_stored {file text : List Char} {before : ElmJsonFile}
    (parsed : cjsonParse file = some (.object members)) (plain : PlainFile members)
    (read : elmJsonRead file = some before) (type : elmJson.type = before.elmJson.type)
    (storable : elmJson.Storable)
    (left_ : cjsonParse text = some (.object (storedMembers members elmJson)))
    (small : text.length ≤ maxElmJsonFileBytes) :
    elmJsonRead text = some { before with elmJson := elmJson.stored } := by
  have version : stringItem (.object (storedMembers members elmJson)) "elm-version" = _ :=
    stringItem_stored (by decide) (by decide) members elmJson
  have typed : readType (.object (storedMembers members elmJson)) = readType (.object members) := by
    unfold readType
    rw [stringItem_stored (by decide) (by decide)]
  have name : stringItem (.object (storedMembers members elmJson)) "name" = _ :=
    stringItem_stored (by decide) (by decide) members elmJson
  have released : stringItem (.object (storedMembers members elmJson)) "version" = _ :=
    stringItem_stored (by decide) (by decide) members elmJson
  unfold elmJsonRead at read ⊢
  rw [if_neg (not_lt.mpr small), left_]
  rw [parsed] at read
  split at read
  · cases read
  simp only [Option.bind_eq_bind, Option.bind_some] at read ⊢
  rw [typed, version, name, released]
  cases kind : readType (.object members) with
  | none =>
    rw [kind] at read
    cases read
  | some kind' =>
    rw [kind, Option.bind_some] at read
    cases kind' with
    | application =>
      obtain ⟨maps, -, found⟩ := Option.bind_eq_some_iff.mp read
      cases found
      dsimp only [Option.bind_some]
      rw [readApplicationMaps_stored plain storable type, Option.bind_some]
      have same : ElmProjectType.application = elmJson.stored.type := type.symm
      rw [same]
    | package =>
      obtain ⟨maps, -, found⟩ := Option.bind_eq_some_iff.mp read
      cases found
      dsimp only [Option.bind_some]
      rw [readPackageMaps_stored plain storable type, Option.bind_some]
      have same : ElmProjectType.package = elmJson.stored.type := type.symm
      rw [same]

/-! ## Many writes -/

/-- The file after `elm_json_write` of each of these; one that fails leaves it as it is. -/
def elmJsonWrites (file : List Char) (edits : List ElmJson) : List Char :=
  edits.foldl (fun file elmJson => (elmJsonWrite elmJson file).getD file) file

/-- A file that is too long stays as it is. -/
theorem elmJsonWrites_long {file : List Char} (long : maxElmJsonFileBytes < file.length)
    (edits : List ElmJson) : elmJsonWrites file edits = file := by
  induction edits with
  | nil => rfl
  | cons elmJson edits ih =>
    have refused : elmJsonWrite elmJson file = none := if_pos long
    have step : elmJsonWrites file (elmJson :: edits) =
        elmJsonWrites ((elmJsonWrite elmJson file).getD file) edits := rfl
    rw [step, refused, Option.getD_none, ih]

theorem elmJsonRead_small {file : List Char} {read : ElmJsonFile}
    (some_ : elmJsonRead file = some read) : file.length ≤ maxElmJsonFileBytes := by
  unfold elmJsonRead at some_
  split at some_
  · cases some_
  · rename_i small
    exact not_lt.mp small

theorem document_stored (plain : PlainFile members) (storable : elmJson.Storable) :
    Document 3 (.object (storedMembers members elmJson)) (storedText members elmJson) :=
  document_formatted (plain.printable storable) 0

/-- A document of the standard's grammar, with the same other members. -/
structure Rewritten (members : List (String × Json)) (text : List Char)
    (left : List (String × Json)) : Prop where
  written : Document 3 (.object left) text
  kept : keptMembers left = keptMembers members

/-- Any number of writes leaves a file of the standard's grammar whose other members are the ones
of the start, and that is read as the last `ElmJson` that was written, unless it has grown too
long: then each further write fails. -/
theorem elmJsonWrites_reads {file : List Char} {members : List (String × Json)}
    {before : ElmJsonFile} {edits : List ElmJson} (last : ElmJson)
    (parsed : cjsonParse file = some (.object members)) (plain : PlainFile members)
    (read : elmJsonRead file = some before)
    (each : ∀ elmJson ∈ edits ++ [last],
      elmJson.type = before.elmJson.type ∧ elmJson.Storable) :
    ∃ left, Rewritten members (elmJsonWrites file (edits ++ [last])) left ∧
      if (elmJsonWrites file (edits ++ [last])).length ≤ maxElmJsonFileBytes then
        elmJsonRead (elmJsonWrites file (edits ++ [last])) =
          some { before with elmJson := last.stored }
      else ∀ elmJson, elmJsonWrite elmJson (elmJsonWrites file (edits ++ [last])) = none := by
  induction edits generalizing file members before with
  | nil =>
    obtain ⟨type, storable⟩ := each last (List.mem_singleton_self last)
    have document := document_stored plain storable
    have written : elmJsonWrites file ([] ++ [last]) = storedText members last := by
      change (elmJsonWrite last file).getD file = _
      rw [elmJsonWrite_eq parsed, if_neg (not_lt.mpr (elmJsonRead_small read)), Option.getD_some]
    rw [written]
    refine ⟨_, ⟨document, keptMembers_stored plain last⟩, ?_⟩
    split
    · rename_i small
      have back := parse_formatted (plain.printable storable)
      exact elmJsonRead_stored parsed plain read type storable back small
    · rename_i long
      exact fun elmJson => if_pos (not_le.mp long)
  | cons elmJson edits ih =>
    obtain ⟨⟨type, storable⟩, later⟩ := List.forall_mem_cons.mp each
    have document := document_stored plain storable
    have back := parse_formatted (plain.printable storable)
    have step : elmJsonWrites file (elmJson :: edits ++ [last]) =
        elmJsonWrites (storedText members elmJson) (edits ++ [last]) := by
      change elmJsonWrites ((elmJsonWrite elmJson file).getD file) (edits ++ [last]) = _
      rw [elmJsonWrite_eq parsed, if_neg (not_lt.mpr (elmJsonRead_small read)), Option.getD_some]
    rw [step]
    by_cases small : (storedText members elmJson).length ≤ maxElmJsonFileBytes
    · have next := elmJsonRead_stored parsed plain read type storable back small
      have types : elmJson.stored.type = before.elmJson.type := type
      obtain ⟨left, rewritten, reads⟩ := ih back (plain.stored elmJson) next fun other on => by
        rw [types]
        exact later other on
      exact ⟨left, ⟨rewritten.written, rewritten.kept.trans (keptMembers_stored plain elmJson)⟩,
        reads⟩
    · have long := not_le.mp small
      rw [elmJsonWrites_long long, if_neg small]
      exact ⟨_, ⟨document, keptMembers_stored plain elmJson⟩, fun other => if_pos long⟩

/-! ## A run -/

/-- The members of an `elm.json`. -/
def sampleMembers : List (String × Json) :=
  [("type", .string "package"), ("summary", .string "Codecs")]

/-- The file of them. -/
def sampleFile : List Char := writeElmJsonFormatted (sampleMembers.map asChild)

/-- What is read of it. -/
def sampleRead : ElmJsonFile where
  elmJson := ⟨.package, fun _ => packageMapCreate⟩
  elmVersion := "0.19.1"
  packageName := none
  packageVersion := none

/-- The `elm.json` of a package with one dependency. -/
def sampleEdit (version : String) : ElmJson where
  type := .package
  maps
    | .packageDependencies => ⟨[⟨elmJsonPackage, version⟩], List.nodup_singleton _⟩
    | _ => packageMapCreate

theorem storable_sampleEdit {version : String} (printable : Printable version)
    (short : version.toList.length < maxElmJsonVersionValueLength) :
    (sampleEdit version).Storable := by
  constructor
  · rintro field - p on
    cases field <;> simp only [sampleEdit, packageMapCreate, List.mem_singleton,
      List.not_mem_nil] at on
    exact on ▸ printable
  · rintro field - p on
    cases field <;> simp only [sampleEdit, packageMapCreate, List.mem_singleton,
      List.not_mem_nil] at on
    exact on ▸ short
  · rintro field -
    cases field <;> simp [sampleEdit, packageMapCreate, maxElmJsonDependencyEntries]

theorem elmJsonRead_sample (parsed : cjsonParse sampleFile = some (.object sampleMembers)) :
    elmJsonRead sampleFile = some sampleRead := by
  have type : readType (.object sampleMembers) = some .package := by decide
  have items : stringItem (.object sampleMembers) "elm-version" = none ∧
      stringItem (.object sampleMembers) "name" = none ∧
      stringItem (.object sampleMembers) "version" = none := by decide
  have deps : getObjectItem (.object sampleMembers) "dependencies" = none := by
    rw [getObjectItem_members]
    rfl
  have tests : getObjectItem (.object sampleMembers) "test-dependencies" = none := by
    rw [getObjectItem_members]
    rfl
  have maps : readPackageMaps (.object sampleMembers) = some fun _ => packageMapCreate := by
    unfold readPackageMaps
    rw [deps, tests]
    simp only [readMap, Option.bind_eq_bind, Option.bind_some]
    congr 1
    funext field
    cases field <;> rfl
  unfold elmJsonRead
  rw [if_neg (by decide), parsed]
  simp only [Option.bind_eq_bind, Option.bind_some, type, items, maps, Option.getD_none]
  rfl

theorem elmJsonWrites_twice : ∃ left, Rewritten sampleMembers
    (elmJsonWrites sampleFile ([sampleEdit "1.1.3"] ++ [sampleEdit "1.1.4"])) left ∧
    if (elmJsonWrites sampleFile ([sampleEdit "1.1.3"] ++ [sampleEdit "1.1.4"])).length ≤
        maxElmJsonFileBytes then
      elmJsonRead (elmJsonWrites sampleFile ([sampleEdit "1.1.3"] ++ [sampleEdit "1.1.4"])) =
        some { sampleRead with elmJson := (sampleEdit "1.1.4").stored }
    else ∀ elmJson, elmJsonWrite elmJson
      (elmJsonWrites sampleFile ([sampleEdit "1.1.3"] ++ [sampleEdit "1.1.4"])) = none := by
  have plain : ∀ member ∈ sampleMembers, Printable member.1 ∧ PlainValue member.2 := by
    intro member on
    rcases List.mem_cons.mp on with rfl | on
    · exact ⟨printable_of_all (by decide), .string (printable_of_all (by decide))⟩
    · rw [List.mem_singleton.mp on]
      exact ⟨printable_of_all (by decide), .string (printable_of_all (by decide))⟩
  have once : ∀ member ∈ sampleMembers,
      called "dependencies" member = false ∧ called "test-dependencies" member = false := by decide
  have kept : keptMembers sampleMembers = sampleMembers := rfl
  have parsed : cjsonParse sampleFile = some (.object sampleMembers) := parse_formatted plain
  refine elmJsonWrites_reads (sampleEdit "1.1.4") parsed ⟨kept ▸ plain, kept ▸ once⟩
    (elmJsonRead_sample parsed) ?_
  intro elmJson on
  rcases List.mem_cons.mp on with rfl | on
  · exact ⟨rfl, storable_sampleEdit (printable_of_all (by decide)) (by decide)⟩
  · rw [List.mem_singleton.mp on]
    exact ⟨rfl, storable_sampleEdit (printable_of_all (by decide)) (by decide)⟩

end ElmWrap
