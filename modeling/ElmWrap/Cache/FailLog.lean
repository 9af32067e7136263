import Mathlib.Data.List.DropRight
import ElmWrap.Lib.Pieces
import ElmWrap.Lib.Scan
import ElmWrap.V2Index.Documented

/-!
# The fail log as a blacklist

`cache_download_all.c` logs the versions whose download fails in a form that it reads as
a blacklist. Its reader has a buffer of 512 bytes, so that a longer line is read as
several. The characters of a text stand for its bytes.
-/

namespace ElmWrap.Cache

open Lib (pieces)

/-- The text of a name. -/
abbrev Text := List Char

/-! ## Writing -/

/-- A download that failed, and what `error_msg` says. -/
structure Failure where
  author : Text
  name : Text
  version : Text
  errorMsg : Text
deriving DecidableEq

/-- What is written in front of the message. -/
def Failure.key (failure : Failure) : Text :=
  failure.author ++ '/' :: failure.name ++ '@' :: failure.version

/-- The line of a download, without its end. -/
def Failure.line (failure : Failure) : Text :=
  failure.key ++ "  # ".toList ++
    if failure.errorMsg = [] then "unknown error".toList else failure.errorMsg

/-- The log. -/
def failLog (failures : List Failure) : Text :=
  "# Failed packages from download-all\n".toList ++
    ("# Can be used as blacklist.txt\n\n".toList ++
      failures.flatMap fun failure => failure.line ++ ['\n'])

/-! ## Reading -/

/-- `BlacklistEntry`. -/
structure BlacklistEntry where
  author : Text
  name : Text
  version : Option Text
deriving DecidableEq

/-- `blacklist_contains`. -/
def blacklistContains (entries : List BlacklistEntry) (author name version : Text) : Bool :=
  entries.any fun entry =>
    entry.author = author ∧ entry.name = name ∧
      (entry.version = none ∨ entry.version = some version)

/-- `author/name[@version]`. -/
def parseEntry (line : Text) : Option BlacklistEntry :=
  match cutAt '/' line with
  | none => none
  | some (author, nameAndVersion) =>
    let (name, version) : Text × Option Text :=
      match cutAt '@' nameAndVersion with
      | some (name, version) => (name, some version)
      | none => (nameAndVersion, none)
    if author = [] ∨ name = [] then none else some ⟨author, name, version⟩

/-- A blank at the end of a comment's line. -/
def isBlank (c : Char) : Bool := c = ' ' || c = '\t'

/-- What the end of a line is freed of. -/
def isTrailing (c : Char) : Bool := c = '\n' || c = '\r' || isBlank c

/-- The text in front of two blanks in a row. -/
def untilTwoBlanks (line : Text) : Text :=
  match cutAtBlanks line with
  | some (front, _) => front
  | none => line

/-- The body of the loop of `blacklist_load`. -/
def readEntry (line : Text) : Option BlacklistEntry :=
  let line := line.rdropWhile isTrailing
  if line = [] ∨ line.head? = some '#' then none
  else
    let line :=
      match cutAt '#' line with
      | some (front, _) => front.rdropWhile isBlank
      | none => line
    let line := untilTwoBlanks line
    if line = [] then none else parseEntry line

/-- The characters `line` has room for, in front of the end of a string. -/
def lineSize : Nat := 511

/-- The loop of `blacklist_load`, over the contents of the file. -/
def blacklistLoad (file : Text) : List BlacklistEntry :=
  (pieces lineSize file).filterMap readEntry

/-! ## What a piece of a line says -/

/-- The text of a piece: up to a comment, without blanks at its end, and up to two blanks in a
row. -/
def entryText (piece : Text) : Text :=
  untilTwoBlanks ((piece.takeWhile fun c => c ≠ '\n' ∧ c ≠ '#').rdropWhile isBlank)

theorem rdropWhile_append_stop {p : Char → Bool} {c : Char} (stop : p c = false)
    (front back : Text) :
    (front ++ c :: back).rdropWhile p = front ++ c :: back.rdropWhile p := by
  induction back using List.reverseRecOn with
  | nil =>
    rw [List.rdropWhile_nil]
    exact List.rdropWhile_concat_neg _ _ _ (by rw [stop]; exact Bool.false_ne_true)
  | append_singleton back d ih =>
    have shift : front ++ c :: (back ++ [d]) = front ++ c :: back ++ [d] := by simp
    rw [shift, List.rdropWhile_concat, List.rdropWhile_concat]
    split
    · exact ih
    · exact shift.symm

theorem rdropWhile_congr {p q : Char → Bool} {text : Text} (same : ∀ c ∈ text, p c = q c) :
    text.rdropWhile p = text.rdropWhile q := by
  induction text using List.reverseRecOn with
  | nil => rfl
  | append_singleton text c ih =>
    rw [List.rdropWhile_concat, List.rdropWhile_concat, same c (by simp),
      ih fun d on => same d (List.mem_append_left _ on)]

/-- The end of a line is cut off, and blanks in front of it. -/
theorem rdropWhile_ending {body ending : Text} (noEnds : ∀ c ∈ body, c ≠ '\n' ∧ c ≠ '\r')
    (ends : ending = [] ∨ ending = ['\n']) :
    (body ++ ending).rdropWhile isTrailing = body.rdropWhile isBlank := by
  have all : body.rdropWhile isTrailing = body.rdropWhile isBlank := by
    refine rdropWhile_congr fun c on => ?_
    obtain ⟨feed, return_⟩ := noEnds c on
    simp [isTrailing, feed, return_]
  rcases ends with rfl | rfl
  · rw [List.append_nil, all]
  · rw [List.rdropWhile_concat_pos _ _ _ (by decide), all]

/-- The reader sees the text of a piece. -/
theorem readEntry_eq {body ending : Text} (noEnds : ∀ c ∈ body, c ≠ '\n' ∧ c ≠ '\r')
    (ends : ending = [] ∨ ending = ['\n']) :
    readEntry (body ++ ending) = parseEntry (entryText (body ++ ending)) := by
  unfold readEntry entryText
  rw [rdropWhile_ending noEnds ends]
  dsimp only
  cases comment : cutAt '#' body with
  | none =>
    have off := cutAt_eq_none.mp comment
    have seen : (body ++ ending).takeWhile (fun c => c ≠ '\n' ∧ c ≠ '#') = body := by
      rw [List.takeWhile_append_of_pos fun c on => by
        simpa using ⟨(noEnds c on).1, fun same => off (same ▸ on)⟩]
      rcases ends with rfl | rfl
      · exact List.append_nil body
      · exact List.append_nil body
    have off' : '#' ∉ body.rdropWhile isBlank :=
      fun on => off ((List.rdropWhile_prefix _ _).subset on)
    rw [seen]
    generalize body.rdropWhile isBlank = text at off'
    cases text with
    | nil => rfl
    | cons c text =>
      rw [if_neg, cutAt_eq_none.mpr off']
      · dsimp only
        split
        · rename_i empty
          rw [empty]
          rfl
        · rfl
      · rintro (none_ | mark)
        · cases none_
        · cases mark
          exact off' (List.mem_cons_self ..)
  | some cut =>
    obtain ⟨front, back⟩ := cut
    have off := not_mem_of_cutAt comment
    obtain rfl := cutAt_some comment
    have seen : (front ++ '#' :: back ++ ending).takeWhile (fun c => c ≠ '\n' ∧ c ≠ '#') =
        front := by
      rw [List.append_assoc, List.takeWhile_append_of_pos fun c on => by
        simpa using ⟨(noEnds c (List.mem_append_left _ on)).1, fun same => off (same ▸ on)⟩]
      exact List.append_nil front
    rw [seen, rdropWhile_append_stop (by decide)]
    cases front with
    | nil => rfl
    | cons c front =>
      rw [if_neg, cutAt_append off]
      · dsimp only
        split
        · rename_i empty
          rw [empty]
          rfl
        · rfl
      · rintro (none_ | mark)
        · cases none_
        · cases mark
          exact off (List.mem_cons_self ..)

/-- An entry as it is written. -/
def BlacklistEntry.text (entry : BlacklistEntry) : Text :=
  entry.author ++ '/' :: (entry.name ++
    match entry.version with
    | none => []
    | some version => '@' :: version)

theorem text_all (author name : Text) :
    (BlacklistEntry.mk author name none).text = author ++ '/' :: name := by
  unfold BlacklistEntry.text
  rw [List.append_nil]

theorem text_version (author name version : Text) :
    (BlacklistEntry.mk author name (some version)).text =
      author ++ '/' :: name ++ '@' :: version := by
  unfold BlacklistEntry.text
  rw [List.append_assoc, List.cons_append]

theorem parseEntry_iff {line : Text} {entry : BlacklistEntry} :
    parseEntry line = some entry ↔
      line = entry.text ∧ '/' ∉ entry.author ∧ '@' ∉ entry.name ∧ entry.author ≠ [] ∧
        entry.name ≠ [] := by
  obtain ⟨author, name, version⟩ := entry
  unfold parseEntry BlacklistEntry.text
  constructor
  · intro parsed
    cases slash : cutAt '/' line with
    | none =>
      rw [slash] at parsed
      cases parsed
    | some cut =>
      obtain ⟨front, back⟩ := cut
      rw [slash] at parsed
      have whole := cutAt_some slash
      have off := not_mem_of_cutAt slash
      dsimp only at parsed
      cases sign : cutAt '@' back with
      | none =>
        rw [sign] at parsed
        dsimp only at parsed
        split at parsed
        · cases parsed
        · rename_i some_
          cases parsed
          obtain ⟨author_, name_⟩ := not_or.mp some_
          exact ⟨by rw [whole, List.append_nil], off, cutAt_eq_none.mp sign, author_, name_⟩
      | some cut =>
        obtain ⟨front', back'⟩ := cut
        rw [sign] at parsed
        dsimp only at parsed
        split at parsed
        · cases parsed
        · rename_i some_
          cases parsed
          obtain ⟨author_, name_⟩ := not_or.mp some_
          exact ⟨by rw [whole, cutAt_some sign], off, not_mem_of_cutAt sign, author_, name_⟩
  · rintro ⟨rfl, off, off', author_, name_⟩
    rw [cutAt_append off]
    dsimp only at off' author_ name_ ⊢
    cases version with
    | none =>
      dsimp only
      rw [List.append_nil, cutAt_eq_none.mpr off', if_neg (not_or.mpr ⟨author_, name_⟩)]
    | some version =>
      dsimp only
      rw [cutAt_append off', if_neg (not_or.mpr ⟨author_, name_⟩)]

/-! ## Names -/

/-- A name or a version. -/
def Plain (text : Text) : Prop :=
  text ≠ [] ∧ ∀ c ∈ text, Lib.Scan.isSpace c = false ∧ c ≠ '#' ∧ c ≠ '/' ∧ c ≠ '@'

theorem plain_of_all {text : Text} (some_ : text ≠ []) (all : (text.all fun c =>
    Lib.Scan.isSpace c = false ∧ c ≠ '#' ∧ c ≠ '/' ∧ c ≠ '@') = true) : Plain text :=
  ⟨some_, fun c on => of_decide_eq_true (List.all_eq_true.mp all c on)⟩

/-- A failed download, with a message that is one line. -/
structure Failure.WellFormed (failure : Failure) : Prop where
  author : Plain failure.author
  name : Plain failure.name
  version : Plain failure.version
  errorMsg : ∀ c ∈ failure.errorMsg, c ≠ '\n' ∧ c ≠ '\r'

/-- A version of a package has failed. -/
def Failed (failures : List Failure) (author name version : Text) : Prop :=
  ∃ failure ∈ failures, failure.author = author ∧ failure.name = name ∧
    failure.version = version

theorem Plain.not_mem {text : Text} (plain : Plain text) :
    '#' ∉ text ∧ '/' ∉ text ∧ '@' ∉ text :=
  ⟨fun on => (plain.2 _ on).2.1 rfl, fun on => (plain.2 _ on).2.2.1 rfl,
    fun on => (plain.2 _ on).2.2.2 rfl⟩

theorem Plain.no_space {text : Text} (plain : Plain text) {c : Char} (on : c ∈ text) :
    c ≠ ' ' ∧ c ≠ '\t' ∧ c ≠ '\n' ∧ c ≠ '\r' := by
  have visible := (plain.2 c on).1
  refine ⟨?_, ?_, ?_, ?_⟩ <;> rintro rfl <;> exact absurd visible (by decide)

/-- There is always another version. -/
theorem exists_other (failures : List Failure) :
    ∃ version, Plain version ∧ ∀ failure ∈ failures, failure.version ≠ version := by
  obtain ⟨n, long⟩ : ∃ n, ∀ failure ∈ failures, failure.version.length ≤ n := by
    induction failures with
    | nil => exact ⟨0, nofun⟩
    | cons failure rest ih =>
      obtain ⟨n, long⟩ := ih
      refine ⟨failure.version.length + n, List.forall_mem_cons.mpr ⟨by omega, ?_⟩⟩
      exact fun other on => (long other on).trans (by omega)
  refine ⟨List.replicate (n + 1) '1', ⟨by simp, fun c on => ?_⟩, fun failure on same => ?_⟩
  · rw [List.eq_of_mem_replicate on]
    decide
  · have short := long failure on
    rw [same, List.length_replicate] at short
    omega

/-! ## The pieces of the log -/

namespace Failure.WellFormed

variable {failure : Failure} (wellFormed : failure.WellFormed)
include wellFormed

/-- A key is one word. -/
theorem key_visible {c : Char} (on : c ∈ failure.key) :
    c ≠ ' ' ∧ c ≠ '\t' ∧ c ≠ '\n' ∧ c ≠ '\r' ∧ c ≠ '#' := by
  have name : ∀ {text : Text}, Plain text → c ∈ text →
      c ≠ ' ' ∧ c ≠ '\t' ∧ c ≠ '\n' ∧ c ≠ '\r' ∧ c ≠ '#' := by
    intro text plain on
    obtain ⟨blank, tab, feed, return_⟩ := plain.no_space on
    exact ⟨blank, tab, feed, return_, (plain.2 c on).2.1⟩
  unfold Failure.key at on
  simp only [List.mem_append, List.mem_cons] at on
  rcases on with (on | rfl | on) | rfl | on
  · exact name wellFormed.author on
  · decide
  · exact name wellFormed.name on
  · decide
  · exact name wellFormed.version on

theorem line_one {c : Char} (on : c ∈ failure.line) : c ≠ '\n' ∧ c ≠ '\r' := by
  unfold Failure.line at on
  simp only [List.mem_append] at on
  rcases on with (on | on) | on
  · obtain ⟨-, -, feed, return_, -⟩ := wellFormed.key_visible on
    exact ⟨feed, return_⟩
  · have all : ("  # ".toList.all fun c => c ≠ '\n' ∧ c ≠ '\r') = true := by decide
    exact of_decide_eq_true (List.all_eq_true.mp all c on)
  · split at on
    · have all : ("unknown error".toList.all fun c => c ≠ '\n' ∧ c ≠ '\r') = true := by decide
      exact of_decide_eq_true (List.all_eq_true.mp all c on)
    · exact wellFormed.errorMsg c on

/-- The entry of a piece is what its text says. -/
theorem readEntry_piece {piece : Text} (on : piece ∈ pieces lineSize (failure.line ++ ['\n'])) :
    readEntry piece = parseEntry (entryText piece) := by
  obtain ⟨body, one, ends, inside⟩ := Lib.mem_pieces on
  have noEnds : ∀ c ∈ body, c ≠ '\n' ∧ c ≠ '\r' := by
    intro c on
    have feed : c ≠ '\n' := fun same => one (same ▸ on)
    rcases List.mem_append.mp (inside c on) with there | there
    · exact wellFormed.line_one there
    · exact absurd (List.mem_singleton.mp there) feed
  rcases ends with rfl | rfl
  · have same := readEntry_eq noEnds (Or.inl rfl)
    rwa [List.append_nil] at same
  · exact readEntry_eq noEnds (Or.inr rfl)

end Failure.WellFormed

theorem cutAtBlanks_none {text : Text} (one : ' ' ∉ text) : cutAtBlanks text = none := by
  induction text with
  | nil => rfl
  | cons c text ih =>
    obtain ⟨here, later⟩ := not_or.mp fun on => one (List.mem_cons.mpr on)
    rw [cutAtBlanks_cons (Ne.symm here), ih later]
    rfl

theorem length_entryText (piece : Text) : (entryText piece).length ≤ piece.length := by
  have cut : ∀ text, (untilTwoBlanks text).length ≤ text.length := by
    intro text
    unfold untilTwoBlanks
    split
    · rename_i front back cut
      rw [(cutAtBlanks_some cut).1, List.length_append]
      omega
    · exact le_rfl
  unfold entryText
  exact (cut _).trans ((List.rdropWhile_prefix _ _).length_le.trans
    (List.takeWhile_prefix _).length_le)

theorem line_eq (failure : Failure) :
    ∃ rest, failure.line ++ ['\n'] = failure.key ++ ' ' :: ' ' :: '#' :: rest := by
  have mark : "  # ".toList = [' ', ' ', '#', ' '] := by decide
  unfold Failure.line
  rw [mark, List.append_assoc, List.append_assoc]
  exact ⟨_, rfl⟩

/-- What is seen of a line behind its key are blanks. -/
theorem isBlank_behind (n : Nat) (rest : Text) :
    ∀ c ∈ ((' ' :: ' ' :: '#' :: rest).take n).takeWhile (fun c => c ≠ '\n' ∧ c ≠ '#'),
      isBlank c = true := by
  have seen : ((' ' :: ' ' :: '#' :: rest).take n).takeWhile (fun c => c ≠ '\n' ∧ c ≠ '#') =
      [' ', ' '].take n := by
    match n with
    | 0 => rfl
    | 1 => rfl
    | 2 => rfl
    | n + 3 => rfl
  have all : [' ', ' '].all isBlank = true := by decide
  rw [seen]
  exact fun c on => List.all_eq_true.mp all c (List.mem_of_mem_take on)

theorem rdropWhile_append_all {p : Char → Bool} (text : Text) {back : Text}
    (all : ∀ c ∈ back, p c = true) : (text ++ back).rdropWhile p = text.rdropWhile p := by
  induction back using List.reverseRecOn with
  | nil => rw [List.append_nil]
  | append_singleton back c ih =>
    rw [← List.append_assoc, List.rdropWhile_concat_pos _ _ _ (all c (by simp)),
      ih fun d on => all d (List.mem_append_left _ on)]

/-- The first piece of a line says its key, where the key fits into it. -/
theorem entryText_first {failure : Failure} (wellFormed : failure.WellFormed)
    (fits : failure.key.length ≤ lineSize) :
    entryText ((failure.line ++ ['\n']).take lineSize) = failure.key := by
  obtain ⟨rest, whole⟩ := line_eq failure
  have visible : ∀ c ∈ failure.key, c ≠ '\n' ∧ c ≠ '#' := fun c on =>
    ⟨(wellFormed.key_visible on).2.2.1, (wellFormed.key_visible on).2.2.2.2⟩
  have trimmed : failure.key.rdropWhile isBlank = failure.key := by
    refine List.rdropWhile_eq_self_iff.mpr fun some_ blank => ?_
    obtain ⟨space, tab, -⟩ := wellFormed.key_visible (List.getLast_mem some_)
    simp [isBlank, space, tab] at blank
  unfold entryText
  rw [whole, List.take_append, List.take_of_length_le fits,
    List.takeWhile_append_of_pos fun c on => by simpa using visible c on,
    rdropWhile_append_all _ (isBlank_behind _ rest), trimmed]
  unfold untilTwoBlanks
  rw [cutAtBlanks_none fun on => (wellFormed.key_visible on).1 rfl]

theorem load_line {line : Text} (one : '\n' ∉ line) (rest : Text) :
    blacklistLoad (line ++ '\n' :: rest) =
      (pieces lineSize (line ++ ['\n'])).filterMap readEntry ++ blacklistLoad rest := by
  unfold blacklistLoad
  rw [Lib.pieces_line _ one, List.filterMap_append]

/-- The head of the log says nothing. -/
theorem load_header (rest : Text) :
    blacklistLoad ("# Failed packages from download-all\n".toList ++
      ("# Can be used as blacklist.txt\n\n".toList ++ rest)) = blacklistLoad rest := by
  have first : "# Failed packages from download-all\n".toList =
      "# Failed packages from download-all".toList ++ ['\n'] := by decide
  have second : "# Can be used as blacklist.txt\n\n".toList =
      "# Can be used as blacklist.txt".toList ++ '\n' :: ([] ++ ['\n']) := by decide
  rw [first, second, List.append_assoc, List.append_assoc, List.singleton_append,
    load_line (by decide), List.cons_append, load_line (by decide), List.append_assoc,
    List.singleton_append, load_line List.not_mem_nil]
  have nothing : (pieces lineSize
        ("# Failed packages from download-all".toList ++ ['\n'])).filterMap readEntry = [] ∧
      (pieces lineSize
        ("# Can be used as blacklist.txt".toList ++ ['\n'])).filterMap readEntry = [] ∧
      (pieces lineSize ([] ++ ['\n'])).filterMap readEntry = [] := by decide
  rw [nothing.1, nothing.2.1, nothing.2.2]
  rfl

/-- The entries of the log are those of the pieces of its lines. -/
theorem mem_blacklistLoad {failures : List Failure}
    (wellFormed : ∀ failure ∈ failures, failure.WellFormed) {entry : BlacklistEntry} :
    entry ∈ blacklistLoad (failLog failures) ↔
      ∃ failure ∈ failures, ∃ piece ∈ pieces lineSize (failure.line ++ ['\n']),
        parseEntry (entryText piece) = some entry := by
  unfold failLog
  rw [load_header]
  induction failures with
  | nil => exact iff_of_false List.not_mem_nil nofun
  | cons failure rest ih =>
    obtain ⟨here, later⟩ := List.forall_mem_cons.mp wellFormed
    rw [List.flatMap_cons, List.append_assoc, List.singleton_append,
      load_line fun on => (here.line_one on).1 rfl, List.mem_append, List.mem_filterMap,
      List.exists_mem_cons_iff]
    refine or_congr (exists_congr fun piece => and_congr_right fun on => ?_) (ih later)
    rw [here.readEntry_piece on]

/-! ## The log as a blacklist -/

/-- A piece of a line says nothing of a package, or names a version that has failed. -/
def Harmless (failures : List Failure) (piece : Text) : Prop :=
  ∀ author name, Plain author → Plain name →
    entryText piece ≠ author ++ '/' :: name ∧
    ∀ version, Plain version → entryText piece = author ++ '/' :: name ++ '@' :: version →
      Failed failures author name version

theorem blacklistContains_iff {entries : List BlacklistEntry} {author name version : Text} :
    blacklistContains entries author name version = true ↔
      ⟨author, name, none⟩ ∈ entries ∨ ⟨author, name, some version⟩ ∈ entries := by
  unfold blacklistContains
  rw [List.any_eq_true]
  constructor
  · rintro ⟨⟨_, _, _⟩, on, same⟩
    obtain ⟨rfl, rfl, rfl | rfl⟩ := of_decide_eq_true same
    · exact Or.inl on
    · exact Or.inr on
  · rintro (on | on)
    · exact ⟨_, on, by simp⟩
    · exact ⟨_, on, by simp⟩

/-- An entry of plain names is read where its text is. -/
theorem mem_blacklistLoad_plain {failures : List Failure}
    (wellFormed : ∀ failure ∈ failures, failure.WellFormed) {entry : BlacklistEntry}
    (author : Plain entry.author) (name : Plain entry.name) :
    entry ∈ blacklistLoad (failLog failures) ↔
      ∃ failure ∈ failures, ∃ piece ∈ pieces lineSize (failure.line ++ ['\n']),
        entryText piece = entry.text := by
  rw [mem_blacklistLoad wellFormed]
  refine exists_congr fun failure => and_congr_right fun _ => ?_
  refine exists_congr fun piece => and_congr_right fun _ => ?_
  rw [parseEntry_iff]
  exact and_iff_left ⟨author.not_mem.2.1, name.not_mem.2.2, author.1, name.1⟩

/-- A piece of a line is the first one, or stands behind it. -/
theorem mem_pieces_line {failure : Failure} (wellFormed : failure.WellFormed) {piece : Text} :
    piece ∈ pieces lineSize (failure.line ++ ['\n']) ↔
      piece = (failure.line ++ ['\n']).take lineSize ∨
        piece ∈ (pieces lineSize (failure.line ++ ['\n'])).tail := by
  obtain ⟨more, cut⟩ := Lib.piecesFrom_head lineSize (show 0 < lineSize by decide)
    fun on => (wellFormed.line_one on).1 rfl
  unfold pieces
  rw [cut, List.mem_cons, List.tail_cons]

/-- The log reads back as the blacklist of the versions that failed, just where every key fits into
the reader's buffer and what is read of a line behind its first piece names no other version. -/
theorem failLog_exact (failures : List Failure)
    (wellFormed : ∀ failure ∈ failures, failure.WellFormed) :
    (∀ author name version, Plain author → Plain name → Plain version →
      (blacklistContains (blacklistLoad (failLog failures)) author name version = true ↔
        Failed failures author name version)) ↔
    (∀ failure ∈ failures, failure.key.length ≤ lineSize) ∧
      ∀ failure ∈ failures, ∀ piece ∈ (pieces lineSize (failure.line ++ ['\n'])).tail,
        Harmless failures piece := by
  constructor
  · intro exact_
    -- no entry is one for all versions of a package
    have noneAll : ∀ author name, Plain author → Plain name →
        ⟨author, name, none⟩ ∉ blacklistLoad (failLog failures) := by
      intro author name plainAuthor plainName on
      obtain ⟨version, plain, other⟩ := exists_other failures
      obtain ⟨failure, member, -, -, same⟩ := (exact_ author name version plainAuthor plainName
        plain).mp (blacklistContains_iff.mpr (Or.inl on))
      exact other failure member same
    refine ⟨fun failure member => ?_, fun failure member piece on author name plainAuthor
      plainName => ⟨fun reads => ?_, fun version plain reads => ?_⟩⟩
    · have here := wellFormed failure member
      have listed := (exact_ _ _ _ here.author here.name here.version).mpr
        ⟨failure, member, rfl, rfl, rfl⟩
      rcases blacklistContains_iff.mp listed with all | one
      · exact absurd all (noneAll _ _ here.author here.name)
      · obtain ⟨other, member', piece, on, reads⟩ :=
          (mem_blacklistLoad_plain wellFormed here.author here.name).mp one
        rw [text_version] at reads
        have short := length_entryText piece
        rw [reads] at short
        exact short.trans (Lib.length_pieces (by decide) on)
    · refine noneAll author name plainAuthor plainName ?_
      rw [mem_blacklistLoad_plain wellFormed plainAuthor plainName]
      exact ⟨failure, member, piece, List.mem_of_mem_tail on, reads.trans (text_all ..).symm⟩
    · refine (exact_ author name version plainAuthor plainName plain).mp ?_
      refine blacklistContains_iff.mpr (Or.inr ?_)
      rw [mem_blacklistLoad_plain wellFormed plainAuthor plainName]
      exact ⟨failure, member, piece, List.mem_of_mem_tail on, reads.trans (text_version ..).symm⟩
  · rintro ⟨fits, harmless⟩ author name version plainAuthor plainName plain
    have first : ∀ failure ∈ failures,
        parseEntry (entryText ((failure.line ++ ['\n']).take lineSize)) =
          some ⟨failure.author, failure.name, some failure.version⟩ := by
      intro failure member
      have here := wellFormed failure member
      rw [entryText_first here (fits failure member), parseEntry_iff, text_version]
      exact ⟨rfl, here.author.not_mem.2.1, here.name.not_mem.2.2, here.author.1, here.name.1⟩
    rw [blacklistContains_iff, mem_blacklistLoad wellFormed, mem_blacklistLoad wellFormed]
    constructor
    · rintro (⟨failure, member, piece, on, reads⟩ | ⟨failure, member, piece, on, reads⟩)
      · rcases (mem_pieces_line (wellFormed failure member)).mp on with rfl | later
        · cases (first failure member).symm.trans reads
        · have text := (parseEntry_iff.mp reads).1.trans (text_all author name)
          exact absurd text (harmless failure member piece later _ _ plainAuthor plainName).1
      · rcases (mem_pieces_line (wellFormed failure member)).mp on with rfl | later
        · cases (first failure member).symm.trans reads
          exact ⟨failure, member, rfl, rfl, rfl⟩
        · have text := (parseEntry_iff.mp reads).1.trans (text_version author name version)
          exact (harmless failure member piece later _ _ plainAuthor plainName).2 _ plain text
    · rintro ⟨failure, member, rfl, rfl, rfl⟩
      exact Or.inr ⟨failure, member, _, (mem_pieces_line (wellFormed failure member)).mpr
        (Or.inl rfl), first failure member⟩

/-! ## A version that is cut off -/

/-- A download of a package with a short name. -/
def coreFailure : Failure where
  author := "elm".toList
  name := "core".toList
  version := "1.0.0".toList
  errorMsg := "timeout".toList

theorem failLog_exact_core :
    (blacklistContains (blacklistLoad (failLog [coreFailure])) "elm".toList "core".toList
      "1.0.0".toList = true ↔ Failed [coreFailure] "elm".toList "core".toList "1.0.0".toList) ∧
    coreFailure.key.length ≤ lineSize := by
  have plain : Plain "elm".toList ∧ Plain "core".toList ∧ Plain "1.0.0".toList :=
    ⟨plain_of_all (by decide) (by decide), plain_of_all (by decide) (by decide),
      plain_of_all (by decide) (by decide)⟩
  have message : ("timeout".toList.all fun c => c ≠ '\n' ∧ c ≠ '\r') = true := by decide
  have wellFormed : ∀ failure ∈ [coreFailure], failure.WellFormed := by
    intro failure on
    obtain rfl := List.mem_singleton.mp on
    exact ⟨plain.1, plain.2.1, plain.2.2,
      fun c on => of_decide_eq_true (List.all_eq_true.mp message c on)⟩
  have one : (pieces lineSize (coreFailure.line ++ ['\n'])).tail = [] := by decide
  refine ⟨(failLog_exact [coreFailure] wellFormed).mpr ⟨?_, ?_⟩ _ _ _ plain.1 plain.2.1
    plain.2.2, by decide⟩
  · intro failure on
    obtain rfl := List.mem_singleton.mp on
    decide
  · intro failure on piece later
    obtain rfl := List.mem_singleton.mp on
    rw [one] at later
    cases later

/-- A download of version `10` of a package with a long name. -/
def longFailure : Failure where
  author := List.replicate 507 'a'
  name := ['p']
  version := ['1', '0']
  errorMsg := "timeout".toList

/-- Version `1` is read in place of version `10`. -/
theorem failLog_cut :
    longFailure.WellFormed ∧
      blacklistContains (blacklistLoad (failLog [longFailure])) longFailure.author ['p']
        ['1', '0'] = false ∧
      blacklistContains (blacklistLoad (failLog [longFailure])) longFailure.author ['p']
        ['1'] = true := by
  have message : ("timeout".toList.all fun c => c ≠ '\n' ∧ c ≠ '\r') = true := by decide
  refine ⟨⟨⟨by decide, fun c on => ?_⟩, plain_of_all (by decide) (by decide),
    plain_of_all (by decide) (by decide),
    fun c on => of_decide_eq_true (List.all_eq_true.mp message c on)⟩, by decide +kernel,
    by decide +kernel⟩
  rw [List.eq_of_mem_replicate on]
  decide

end ElmWrap.Cache
