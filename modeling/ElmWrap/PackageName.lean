import ElmWrap.VersionText

/-!
# Package names

`parse_package_name` of `commands/package/package_common.c` and what follows
from it: a name it has accepted carries the checks it has passed, and is read
back from the text it is printed as.
-/

namespace ElmWrap

/-- `MAX_PACKAGE_NAME_LENGTH`. -/
def maxPackageNameLength : Nat := 256

/-- The characters `is_valid_url_path_component_like` accepts. -/
def isUnreserved (c : Char) : Bool :=
  c.isUpper || c.isLower || c.isDigit || c = '-' || c = '.' || c = '_' || c = '~'

/-- `is_valid_url_path_component_like`. -/
def isValidUrlPathComponentLike (segment : List Char) : Bool :=
  !segment.isEmpty && segment ≠ ['.'] && segment ≠ ['.', '.'] && segment.all isUnreserved

/-- `is_valid_elm_project_name`. -/
def isValidElmProjectName (name : List Char) : Bool :=
  !name.isEmpty && !(name.headD '-').isDigit && name.head? ≠ some '-' &&
    name.getLast? ≠ some '-' &&
    (name.all fun c => c.isLower || c.isDigit || c = '-') &&
    (name.zip name.tail).all fun p => !(p.1 = '-' && p.2 = '-')

/-- An author and a project name that `parse_package_name` has accepted. -/
structure PackageName where
  author : String
  project : String
  validAuthor : isValidUrlPathComponentLike author.toList = true
  validProject : isValidElmProjectName project.toList = true
  short : author.utf8ByteSize + 1 + project.utf8ByteSize < maxPackageNameLength
deriving DecidableEq

/-- `author/project`. -/
def PackageName.full (p : PackageName) : String := p.author ++ "/" ++ p.project

theorem PackageName.ext_parts {p q : PackageName} (author : p.author = q.author)
    (project : p.project = q.project) : p = q := by
  cases p
  cases q
  cases author
  cases project
  rfl

/-- The parts of a text before and after the first occurrence of a character, which
`strchr` finds. -/
def cutAt (c : Char) : List Char → Option (List Char × List Char)
  | [] => none
  | d :: rest =>
    if d = c then some ([], rest) else (cutAt c rest).map fun p => (d :: p.1, p.2)

theorem cutAt_some {c : Char} {text before after : List Char}
    (cut : cutAt c text = some (before, after)) : text = before ++ c :: after := by
  induction text generalizing before after with
  | nil => cases cut
  | cons d rest ih =>
    unfold cutAt at cut
    split at cut
    · rename_i same
      cases cut
      rw [same]
      rfl
    · obtain ⟨⟨front, back⟩, found, same⟩ := Option.map_eq_some_iff.mp cut
      cases same
      rw [ih found]
      rfl

theorem not_mem_of_cutAt {c : Char} {text before after : List Char}
    (cut : cutAt c text = some (before, after)) : c ∉ before := by
  induction text generalizing before after with
  | nil => cases cut
  | cons d rest ih =>
    unfold cutAt at cut
    split at cut
    · cases cut
      exact List.not_mem_nil
    · rename_i other
      obtain ⟨⟨front, back⟩, found, same⟩ := Option.map_eq_some_iff.mp cut
      cases same
      rw [List.mem_cons]
      rintro (here | later)
      · exact other here.symm
      · exact ih found later

theorem cutAt_append {c : Char} {before after : List Char} (plain : c ∉ before) :
    cutAt c (before ++ c :: after) = some (before, after) := by
  induction before with
  | nil => simp [cutAt]
  | cons d before ih =>
    have other : d ≠ c := fun same => plain (same ▸ List.mem_cons_self)
    have rest := ih fun member => plain (List.mem_cons_of_mem d member)
    rw [List.cons_append, cutAt, if_neg other, rest]
    rfl

theorem cutAt_eq_none {c : Char} {text : List Char} : cutAt c text = none ↔ c ∉ text := by
  induction text with
  | nil => simp [cutAt]
  | cons d rest ih =>
    unfold cutAt
    split
    · rename_i same
      simp [same]
    · rename_i other
      rw [Option.map_eq_none_iff, ih, List.mem_cons, not_or]
      exact ⟨fun plain => ⟨Ne.symm other, plain⟩, And.right⟩

/-- `parse_package_name`. -/
def parsePackageName (package : String) : Option PackageName :=
  if short : package.utf8ByteSize = 0 ∨ package.utf8ByteSize ≥ maxPackageNameLength then none
  else
    match split : cutAt '/' package.toList with
    | none => none
    | some (author, name) =>
      if author.isEmpty || name.isEmpty || name.contains '/' then none
      else if valid : isValidUrlPathComponentLike author = true ∧
          isValidElmProjectName name = true then
        some {
          author := String.ofList author
          project := String.ofList name
          validAuthor := by simpa using valid.1
          validProject := by simpa using valid.2
          short := by
            have whole := cutAt_some split
            have text : package = String.ofList author ++ "/" ++ String.ofList name := by
              apply String.toList_inj.mp
              simp [whole]
            have size := congrArg String.utf8ByteSize text
            simp only [String.utf8ByteSize_append] at size
            have one : ("/" : String).utf8ByteSize = 1 := by decide
            omega }
      else none

/-- `parse_package_with_version`. -/
def parsePackageWithVersion (spec : String) : Option (PackageName × Version) :=
  match cutAt '@' spec.toList with
  | none => none
  | some (package, version) =>
    match parsePackageName (String.ofList package) with
    | none => none
    | some package =>
      match versionParseSafe (String.ofList version) with
      | none => none
      | some v => some (package, v)

/-! ## Reading back what is printed -/

theorem PackageName.author_plain (p : PackageName) {c : Char} (reserved : isUnreserved c = false) :
    c ∉ p.author.toList := by
  intro member
  have valid := p.validAuthor
  simp only [isValidUrlPathComponentLike, Bool.and_eq_true] at valid
  have unreserved := List.all_eq_true.mp valid.2 c member
  rw [reserved] at unreserved
  cases unreserved

theorem PackageName.project_plain (p : PackageName) {c : Char}
    (other : (c.isLower || c.isDigit || c = '-') = false) : c ∉ p.project.toList := by
  intro member
  have valid := p.validProject
  simp only [isValidElmProjectName, Bool.and_eq_true] at valid
  have allowed := List.all_eq_true.mp valid.1.2 c member
  rw [other] at allowed
  cases allowed

theorem PackageName.full_toList (p : PackageName) :
    p.full.toList = p.author.toList ++ '/' :: p.project.toList := by
  simp [PackageName.full]

/-- A name is read back from `author/project`. -/
@[simp] theorem parsePackageName_full (p : PackageName) : parsePackageName p.full = some p := by
  have slash : ("/" : String).utf8ByteSize = 1 := by decide
  have size : p.full.utf8ByteSize = p.author.utf8ByteSize + 1 + p.project.utf8ByteSize := by
    rw [PackageName.full, String.utf8ByteSize_append, String.utf8ByteSize_append, slash]
  have short := p.short
  have cut : cutAt '/' p.full.toList = some (p.author.toList, p.project.toList) := by
    rw [p.full_toList, cutAt_append (p.author_plain rfl)]
  have author : p.author.toList.isEmpty = false := by
    have valid := p.validAuthor
    simp only [isValidUrlPathComponentLike, Bool.and_eq_true] at valid
    simpa using valid.1.1.1
  have project : p.project.toList.isEmpty = false := by
    have valid := p.validProject
    simp only [isValidElmProjectName, Bool.and_eq_true] at valid
    simpa using valid.1.1.1.1.1
  have nested : p.project.toList.contains '/' = false := by
    have absent := p.project_plain (c := '/') rfl
    simpa using absent
  unfold parsePackageName
  rw [dif_neg (by omega)]
  split
  · rename_i missing
    rw [cut] at missing
    cases missing
  · rename_i a n found
    rw [cut] at found
    cases found
    rw [author, project, nested]
    simp only [Bool.or_self, Bool.false_eq_true, if_false]
    rw [dif_pos ⟨p.validAuthor, p.validProject⟩]
    simp [String.ofList_toList]

theorem PackageName.full_injective {p q : PackageName} (same : p.full = q.full) : p = q := by
  have read := congrArg parsePackageName same
  rw [parsePackageName_full, parsePackageName_full] at read
  exact Option.some_inj.mp read

/-- What is read is what the text says. -/
theorem full_of_parsePackageName {package : String} {p : PackageName}
    (read : parsePackageName package = some p) : p.full = package := by
  unfold parsePackageName at read
  split at read
  · cases read
  split at read
  · cases read
  rename_i author name split
  split at read
  · cases read
  split at read
  · cases read
    apply String.toList_inj.mp
    rw [PackageName.full_toList, String.toList_ofList, String.toList_ofList]
    exact (cutAt_some split).symm
  · cases read

/-! ## Packages of the author `elm` -/

theorem elm_validAuthor : isValidUrlPathComponentLike "elm".toList = true := by decide

def elmCorePackage : PackageName where
  author := "elm"
  project := "core"
  validAuthor := elm_validAuthor
  validProject := by decide
  short := by decide

def elmJsonPackage : PackageName where
  author := "elm"
  project := "json"
  validAuthor := elm_validAuthor
  validProject := by decide
  short := by decide

end ElmWrap
