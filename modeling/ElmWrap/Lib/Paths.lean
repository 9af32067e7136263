import Mathlib.Data.List.Infix

/-!
# Paths and trees of directories

A path is a list of segments, a place a list of names from the root down. `.`
and `..` move without looking at the tree; the kernel walks a path through the
directories that are there. A tree has no links.
-/

namespace ElmWrap.Lib.Paths

variable {N C : Type}

/-- A segment of a path: `.`, `..`, or a name. -/
inductive Segment (N : Type)
  | here
  | up
  | name (n : N)
deriving DecidableEq

/-- Where a segment leads to. -/
def Segment.move (place : List N) : Segment N → List N
  | .here => place
  | .up => place.dropLast
  | .name n => place ++ [n]

/-- Where a path leads to, with `.` and `..` resolved. -/
def resolve (base : List N) (path : List (Segment N)) : List N := path.foldl Segment.move base

@[simp] theorem resolve_nil (base : List N) : resolve base [] = base := rfl

@[simp] theorem resolve_cons (base : List N) (s : Segment N) (path : List (Segment N)) :
    resolve base (s :: path) = resolve (s.move base) path := rfl

theorem resolve_append (base : List N) (p q : List (Segment N)) :
    resolve base (p ++ q) = resolve (resolve base p) q := by
  unfold resolve
  rw [List.foldl_append]

/-- A path of names leads further down. -/
theorem prefix_resolve_names (base : List N) (names : List N) :
    resolve base (names.map Segment.name) = base ++ names := by
  induction names generalizing base with
  | nil => simp
  | cons n names ih =>
    rw [List.map_cons, resolve_cons, ih, Segment.move, List.append_assoc]
    rfl

/-! ## Trees -/

/-- What stands at a place. -/
inductive Node (C : Type)
  | directory
  | file (contents : C)
deriving DecidableEq

/-- A tree of directories and files. -/
abbrev Tree (N C : Type) := List N → Option (Node C)

/-- The kernel's walk along a path; all places before the last one must be
directories. -/
def walk (tree : Tree N C) (base : List N) : List (Segment N) → Option (List N)
  | [] => some base
  | s :: path =>
    match tree base with
    | some .directory => walk tree (s.move base) path
    | _ => none

/-- The places of the names along a path. -/
def way (base : List N) : List (Segment N) → List (List N)
  | [] => []
  | .name n :: path => (base ++ [n]) :: way (base ++ [n]) path
  | .here :: path => way base path
  | .up :: path => way base.dropLast path

theorem way_append (base : List N) (p q : List (Segment N)) :
    way base (p ++ q) = way base p ++ way (resolve base p) q := by
  induction p generalizing base with
  | nil => rfl
  | cons s p ih => cases s <;> simp [way, Segment.move, ih]

/-- A walk that finds a directory for its first step. -/
theorem walk_cons {tree : Tree N C} {base place : List N} {s : Segment N}
    {path : List (Segment N)} :
    walk tree base (s :: path) = some place ↔
      tree base = some .directory ∧ walk tree (s.move base) path = some place := by
  have step : walk tree base (s :: path) =
      match tree base with
      | some .directory => walk tree (s.move base) path
      | _ => none := rfl
  rw [step]
  split
  · rename_i here
    simp only [here, true_and]
  · rename_i other
    constructor
    · intro found
      cases found
    · intro ⟨here, _⟩
      exact absurd here other

theorem walk_resolve {tree : Tree N C} {path : List (Segment N)} :
    ∀ {base place : List N}, walk tree base path = some place → place = resolve base path := by
  induction path with
  | nil =>
    intro base place found
    cases found
    rfl
  | cons s path ih =>
    intro base place found
    exact ih (walk_cons.1 found).2

theorem walk_append {tree : Tree N C} {p q : List (Segment N)} {place : List N} :
    ∀ {base : List N}, walk tree base (p ++ q) = some place ↔
      walk tree base p = some (resolve base p) ∧ walk tree (resolve base p) q = some place := by
  induction p with
  | nil =>
    intro base
    exact ⟨fun found => ⟨rfl, found⟩, And.right⟩
  | cons s p ih =>
    intro base
    rw [List.cons_append, walk_cons, walk_cons, ih, resolve_cons, and_assoc]

/-- On the way of a walk there are directories only. -/
theorem walk_through {tree : Tree N C} {base place : List N} {p q : List (Segment N)}
    {s : Segment N} (found : walk tree base (p ++ s :: q) = some place) :
    tree (resolve base p) = some .directory :=
  (walk_cons.1 (walk_append.1 found).2).1

/-- A walk to a directory goes through directories at all its points. -/
theorem walk_prefix {tree : Tree N C} {base : List N} {p q : List (Segment N)}
    (found : walk tree base (p ++ q) = some (resolve base (p ++ q)))
    (directory : tree (resolve base (p ++ q)) = some .directory) :
    walk tree base p = some (resolve base p) ∧ tree (resolve base p) = some .directory := by
  refine ⟨(walk_append.1 found).1, ?_⟩
  cases q with
  | nil => rwa [List.append_nil] at directory
  | cons s q => exact walk_through found

/-- A walk succeeds in a tree that has at least the same directories. -/
theorem walk_mono {tree larger : Tree N C} {path : List (Segment N)}
    (grown : ∀ place, tree place = some .directory → larger place = some .directory) :
    ∀ {base place : List N}, walk tree base path = some place →
      walk larger base path = some place := by
  induction path with
  | nil => exact fun found => found
  | cons s path ih =>
    intro base place found
    obtain ⟨here, rest⟩ := walk_cons.1 found
    exact walk_cons.2 ⟨grown _ here, ih rest⟩

/-- A walk to something finds something at every name on its way. -/
theorem way_of_walk {tree : Tree N C} {path : List (Segment N)} :
    ∀ {base place : List N}, walk tree base path = some place → (tree place).isSome →
      ∀ p ∈ way base path, (tree p).isSome := by
  induction path with
  | nil =>
    intro base place _ _ p member
    cases member
  | cons s path ih =>
    intro base place found there p member
    obtain ⟨_, rest⟩ := walk_cons.1 found
    cases s with
    | here => exact ih rest there p member
    | up => exact ih rest there p member
    | name n =>
      rcases List.mem_cons.mp member with rfl | later
      · -- the first name is a directory that the walk goes on from, or the end of it
        cases path with
        | nil =>
          cases rest
          exact there
        | cons s path =>
          have here : tree (base ++ [n]) = some .directory := (walk_cons.1 rest).1
          rw [here]
          rfl
      · exact ih rest there p later

/-! ## Paths -/

/-- A path, where it starts, and whether a slash ends it. -/
structure Path (N : Type) where
  base : List N
  parts : List (Segment N)
  slash : Bool

/-- Where a path leads to, with `.` and `..` resolved. -/
def Path.place (path : Path N) : List N := resolve path.base path.parts

/-- `dirname`. -/
def Path.dirname (path : Path N) : Path N := ⟨path.base, path.parts.dropLast, false⟩

/-- The places of the names along a path. -/
def Path.way (path : Path N) : List (List N) := Paths.way path.base path.parts

/-- A path goes through its parent's names to its place. -/
theorem Path.way_dirname (path : Path N) :
    path.dirname.way ⊆ path.way ∧
      ∀ p ∈ path.way, p ∈ path.dirname.way ∨ p = path.place := by
  obtain ⟨base, parts, slash⟩ := path
  unfold Path.way Path.dirname Path.place
  rcases List.eq_nil_or_concat parts with rfl | ⟨front, last, rfl⟩
  · exact ⟨List.nil_subset _, fun p member => nomatch member⟩
  · rw [List.concat_eq_append, List.dropLast_concat, way_append, resolve_append]
    refine ⟨List.subset_append_left .., fun p member => ?_⟩
    rcases List.mem_append.mp member with before | at_last
    · exact .inl before
    · cases last with
      | here => cases at_last
      | up => cases at_last
      | name n => exact .inr (List.mem_singleton.mp at_last)

/-- `stat`: what a path leads to. Before a slash there must be a directory. -/
def stat [DecidableEq C] (tree : Tree N C) (path : Path N) : Option (Node C) :=
  ((walk tree path.base path.parts).bind tree).filter fun node =>
    !path.slash || node = .directory

theorem stat_some [DecidableEq C] {tree : Tree N C} {path : Path N} {node : Node C}
    (found : stat tree path = some node) :
    walk tree path.base path.parts = some path.place ∧ tree path.place = some node := by
  obtain ⟨found, _⟩ := Option.filter_eq_some_iff.mp found
  obtain ⟨place, walked, here⟩ := Option.bind_eq_some_iff.mp found
  obtain rfl := walk_resolve walked
  exact ⟨walked, here⟩

theorem way_of_stat [DecidableEq C] {tree : Tree N C} {path : Path N} {node : Node C}
    (found : stat tree path = some node) : ∀ p ∈ path.way, (tree p).isSome := by
  obtain ⟨walked, here⟩ := stat_some found
  exact way_of_walk walked (by rw [here]; rfl)

/-! ## Texts -/

/-- The segments of a path's text; slashes that follow each other count once. -/
def segments (text : List Char) : List (Segment (List Char)) :=
  (text.splitOn '/').filterMap fun part =>
    if part = [] then none
    else if part = ['.'] then some .here
    else if part = ['.', '.'] then some .up
    else some (.name part)

/-- The path of a text that is not empty. -/
def Path.ofText (cwd : List (List Char)) (text : List Char) : Path (List Char) :=
  ⟨if text.head? = some '/' then [] else cwd, segments text, text.getLast? = some '/'⟩

@[simp] theorem segments_nil : segments [] = [] := rfl

theorem segments_slash (dir rest : List Char) :
    segments (dir ++ '/' :: rest) = segments dir ++ segments rest := by
  unfold segments
  rw [List.splitOn_append_cons_self, List.filterMap_append]

/-- A text without a slash has at most one segment. -/
theorem segments_plain {text : List Char} (plain : '/' ∉ text) : (segments text).length ≤ 1 := by
  unfold segments
  rw [List.splitOn_eq_singleton plain]
  exact List.length_filterMap_le ..

theorem segments_one {text : List Char} (plain : '/' ∉ text) :
    segments text = [] ∨ ∃ s, segments text = [s] := by
  have short := segments_plain plain
  cases found : segments text with
  | nil => exact .inl rfl
  | cons s rest =>
    rw [found, List.length_cons] at short
    have none : rest = [] := List.length_eq_zero_iff.mp (by omega)
    exact .inr ⟨s, by rw [none]⟩

/-- Where a text ends in a slash and goes on, its segments stay. -/
theorem segments_prefix_of_slash {text : List Char} (slash : text.getLast? = some '/')
    (rest : List Char) : segments text <+: segments (text ++ rest) := by
  obtain ⟨front, rfl⟩ := List.getLast?_eq_some_iff.mp slash
  rw [segments_slash, segments_nil, List.append_nil, List.append_assoc, List.cons_append,
    segments_slash]
  exact List.prefix_append ..

/-- Where a text goes on, all its segments but the last one stay. -/
theorem segments_dropLast_prefix (text rest : List Char) :
    (segments text).dropLast <+: segments (text ++ rest) := by
  by_cases slash : '/' ∈ text
  · obtain ⟨back, front, cut, plain⟩ :=
      List.eq_append_cons_of_mem (List.mem_reverse.mpr slash)
    obtain rfl : text = front.reverse ++ '/' :: back.reverse := by
      rw [← List.reverse_reverse text, cut]
      simp
    rw [segments_slash, List.append_assoc, List.cons_append, segments_slash]
    rcases segments_one (by simpa using plain : '/' ∉ back.reverse) with none | ⟨s, one⟩
    · rw [none, List.append_nil]
      exact (List.dropLast_prefix _).trans (List.prefix_append ..)
    · rw [one, List.dropLast_concat]
      exact List.prefix_append ..
  · rcases segments_one slash with none | ⟨s, one⟩
    · rw [none]
      exact List.nil_prefix
    · rw [one]
      exact List.nil_prefix

end ElmWrap.Lib.Paths
