import ElmWrap.PgSolver.Search
import ElmWrap.VersionText

/-!
# Explaining a failure

`pg_solver_explain_failure` and what it calls. The text is composed of what the calls of
`pg_error_writer_append` and `pg_error_writer_appendf` add; the writer drops everything
from the first addition on that its buffer has no place for. The composition does not
depend on the writer, so it comes first. The depth is that of the recursion. The
characters of a text stand for its bytes.
-/

namespace ElmWrap

variable {γ : Type}

/-! ## Texts -/

/-- What `snprintf` leaves of a text in a buffer. -/
def bufferText (size : Nat) (text : String) : String := String.ofList (text.toList.take (size - 1))

/-- `MAX_TEMP_PATH_LENGTH`. -/
def maxTempPathLength : Nat := 1024

/-- What one call adds to a text. -/
structure PgErrorPiece where
  text : String
  /-- The external incompatibility it states. -/
  mentions : Option PgIncompatibility
  /-- The lines it refers to by their numbers. -/
  references : List Nat
  /-- The number it puts on its line. No call of the source does that. -/
  label : Option Nat

/-- A piece that states no external incompatibility and refers to no line. -/
def pgWords (text : String) : PgErrorPiece := ⟨text, none, [], none⟩

/-- A piece that states an external incompatibility. -/
def pgMention (inc : PgIncompatibility) (text : String) : PgErrorPiece :=
  ⟨bufferText maxTempPathLength text, some inc, [], none⟩

/-- The pieces that have been added, and the incompatibilities of `PgLineNumbering` in the order
of their numbers, from 1 on. -/
structure PgExplanation where
  pieces : List PgErrorPiece
  numbered : List PgIncompatId

/-- `pg_error_writer_append`, but for the buffer. -/
def PgExplanation.append (e : PgExplanation) (piece : PgErrorPiece) : PgExplanation :=
  { e with pieces := e.pieces ++ [piece] }

/-- `pg_line_numbering_assign`. -/
def pgLineNumberingAssign (e : PgExplanation) (id : PgIncompatId) : PgExplanation :=
  if id ∈ e.numbered then e else { e with numbered := e.numbered ++ [id] }

/-! ## Single incompatibilities -/

/-- An incompatibility has causes. -/
def PgSolver.derived (s : PgSolver γ) (id : PgIncompatId) : Bool := !(s.incompat id).causes.isEmpty

/-- `pg_is_simple_derived`. -/
def pgIsSimpleDerived (s : PgSolver γ) (inc : PgIncompatibility) : Bool :=
  match inc.causes with
  | [first, second] => !s.derived first && !s.derived second
  | _ => false

end ElmWrap
