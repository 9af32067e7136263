import Mathlib.Algebra.Group.Int.Defs
import Mathlib.Algebra.Group.Nat.Defs
import Mathlib.Data.List.Basic

/-!
# Scanning text as `sscanf` does

Formats made of white space, literal characters and `%d`. The result is the list
of converted integers, so that its length is what `sscanf` returns. A value that
does not fit is treated as the common C libraries do: it saturates in a `long`
of 64 bits, of which the lower 32 bits are stored.
-/

namespace ElmWrap.Lib.Scan

/-- A directive of a format. -/
inductive Directive
  /-- White space: skips any amount of white space, also none. -/
  | space
  /-- Any other character: has to come next. -/
  | lit (c : Char)
  /-- `%d`. -/
  | int
deriving DecidableEq, Repr

/-- The white space of the C locale. -/
def isSpace (c : Char) : Bool := c = ' ' || ('\t' ≤ c && c ≤ '\r')

/-- The directives of a format string. -/
def format : List Char → List Directive
  | [] => []
  | '%' :: 'd' :: rest => .int :: format rest
  | c :: rest => (if isSpace c then .space else .lit c) :: format rest

/-- How the value of a digit string is stored in an `int`. -/
def toInt (value : Int) : Int :=
  (max (-2 ^ 63) (min value (2 ^ 63 - 1))).bmod (2 ^ 32)

/-- The sign `%d` accepts. -/
def scanSign : List Char → Bool × List Char
  | '-' :: rest => (true, rest)
  | '+' :: rest => (false, rest)
  | text => (false, text)

/-- `%d`: the value and the rest of the text. -/
def scanInt (text : List Char) : Option (Int × List Char) :=
  let (negative, text) := scanSign (text.dropWhile isSpace)
  let digits := text.takeWhile Char.isDigit
  if digits.isEmpty then none
  else
    let value : Int := Nat.ofDigitChars 10 digits 0
    some (toInt (if negative then -value else value), text.dropWhile Char.isDigit)

/-- The integers converted until a directive fails. -/
def scan : List Directive → List Char → List Int
  | [], _ => []
  | .space :: format, text => scan format (text.dropWhile isSpace)
  | .lit _ :: _, [] => []
  | .lit c :: format, d :: text => if c = d then scan format text else []
  | .int :: format, text =>
    match scanInt text with
    | none => []
    | some (value, text) => value :: scan format text

/-- `sscanf`. -/
def sscanf (text : String) (fmt : String) : List Int :=
  scan (format fmt.toList) text.toList

/-! ## Decimal numbers -/

theorem not_isSpace_of_isDigit {c : Char} (digit : c.isDigit = true) : isSpace c = false := by
  have range : 48 ≤ c.toNat ∧ c.toNat ≤ 57 := Char.isDigit_iff_toNat.mp digit
  simp only [isSpace, Bool.or_eq_false_iff, Bool.and_eq_false_iff, decide_eq_false_iff_not]
  constructor
  · intro same
    subst same
    exact absurd range (by decide)
  · right
    intro low
    have := Char.le_def.mp low
    have bound : c.toNat ≤ 13 := by simpa using UInt32.le_iff_toNat_le.mp this
    omega

theorem toInt_ofNat {n : Nat} (small : n < 2 ^ 31) : toInt (n : Int) = n := by
  unfold toInt
  have clamped : max (-2 ^ 63) (min (n : Int) (2 ^ 63 - 1)) = n := by omega
  rw [clamped, Int.bmod_eq_of_le] <;> omega

/-- What is stored fits into an `int`. -/
theorem toInt_lt (value : Int) : toInt value < 2 ^ 31 := by
  unfold toInt
  have bound := @Int.bmod_lt (max (-2 ^ 63) (min value (2 ^ 63 - 1))) (2 ^ 32) (by decide)
  omega

theorem takeWhile_digits {digits rest : List Char} (all : ∀ c ∈ digits, c.isDigit = true)
    (stop : ∀ c, rest.head? = some c → c.isDigit = false) :
    (digits ++ rest).takeWhile Char.isDigit = digits ∧
      (digits ++ rest).dropWhile Char.isDigit = rest := by
  induction digits with
  | nil =>
    cases rest with
    | nil => exact ⟨rfl, rfl⟩
    | cons c rest =>
      have no := stop c rfl
      simp [no]
  | cons d digits ih =>
    have yes := all d List.mem_cons_self
    have tail := ih fun c member => all c (List.mem_cons_of_mem d member)
    simp [yes, tail.1, tail.2]

/-- A digit string and its value, which fits into an `int`. -/
structure Number (digits : List Char) (n : Nat) : Prop where
  nonempty : digits ≠ []
  all : ∀ c ∈ digits, c.isDigit = true
  value : Nat.ofDigitChars 10 digits 0 = n
  small : n < 2 ^ 31

theorem Number.toDigits {n : Nat} (small : n < 2 ^ 31) : Number (Nat.toDigits 10 n) n where
  nonempty := Nat.toDigits_ne_nil
  all c member := Nat.isDigit_of_mem_toDigits (by decide) (by decide) member
  value := by simp
  small := small

/-- A digit string and its value. -/
structure Digits (digits : List Char) (n : Nat) : Prop where
  nonempty : digits ≠ []
  all : ∀ c ∈ digits, c.isDigit = true
  value : Nat.ofDigitChars 10 digits 0 = n

theorem Digits.toDigits (n : Nat) : Digits (Nat.toDigits 10 n) n where
  nonempty := Nat.toDigits_ne_nil
  all c member := Nat.isDigit_of_mem_toDigits (by decide) (by decide) member
  value := by simp

theorem Digits.head {digits : List Char} {n : Nat} (number : Digits digits n) :
    ∃ d tail, digits = d :: tail ∧ d.isDigit = true := by
  obtain ⟨d, tail, split⟩ := List.exists_cons_of_ne_nil number.nonempty
  exact ⟨d, tail, split, number.all d (by rw [split]; exact List.mem_cons_self)⟩

theorem Number.digits {digits : List Char} {n : Nat} (number : Number digits n) :
    Digits digits n :=
  ⟨number.nonempty, number.all, number.value⟩

theorem Number.head {digits : List Char} {n : Nat} (number : Number digits n) :
    ∃ d tail, digits = d :: tail ∧ d.isDigit = true :=
  number.digits.head

/-- There is no white space in front of a number. -/
theorem dropWhile_isSpace_number {digits : List Char} {n : Nat} (number : Number digits n)
    (rest : List Char) : (digits ++ rest).dropWhile isSpace = digits ++ rest := by
  obtain ⟨d, tail, split, first⟩ := number.head
  rw [split, List.cons_append, List.dropWhile_cons_of_neg]
  simp [not_isSpace_of_isDigit first]

/-! ## What `%d` reads -/

/-- A sign and whether it is a minus. -/
inductive SignText : List Char → Bool → Prop
  | unsigned : SignText [] false
  | plus : SignText ['+'] false
  | minus : SignText ['-'] true

/-- White space, at most one sign, and digits. -/
def Numeral (text : List Char) (value : Int) : Prop :=
  ∃ blanks sign digits negative n, text = blanks ++ (sign ++ digits) ∧
    (∀ c ∈ blanks, isSpace c = true) ∧ SignText sign negative ∧ Digits digits n ∧
    value = toInt (if negative then -(n : Int) else n)

theorem Digits.numeral {digits : List Char} {n : Nat} (number : Digits digits n) :
    Numeral digits (toInt n) :=
  ⟨[], [], digits, false, n, rfl, (by intro c member; cases member), .unsigned, number, rfl⟩

theorem scanSign_text (text : List Char) :
    ∃ sign, text = sign ++ (scanSign text).2 ∧ SignText sign (scanSign text).1 := by
  unfold scanSign
  split
  · exact ⟨['-'], rfl, .minus⟩
  · exact ⟨['+'], rfl, .plus⟩
  · exact ⟨[], rfl, .unsigned⟩

/-- A sign before digits is read as such, and is no white space. -/
theorem SignText.read {sign digits : List Char} {negative : Bool} {n : Nat}
    (signed : SignText sign negative) (number : Digits digits n) (rest : List Char) :
    scanSign (sign ++ (digits ++ rest)) = (negative, digits ++ rest) ∧
      (sign ++ (digits ++ rest)).dropWhile isSpace = sign ++ (digits ++ rest) := by
  obtain ⟨d, tail, rfl, first⟩ := number.head
  cases signed with
  | unsigned =>
    refine ⟨?_, ?_⟩
    · rw [List.nil_append, List.cons_append]
      unfold scanSign
      split
      · rename_i same
        cases same
        cases first
      · rename_i same
        cases same
        cases first
      · rfl
    · rw [List.nil_append, List.cons_append, List.dropWhile_cons_of_neg]
      simp [not_isSpace_of_isDigit first]
  | plus => exact ⟨rfl, List.dropWhile_cons_of_neg (by decide)⟩
  | minus => exact ⟨rfl, List.dropWhile_cons_of_neg (by decide)⟩

/-- `%d` reads the longest numeral in front. -/
theorem scanInt_eq_some {text rest : List Char} {value : Int} :
    scanInt text = some (value, rest) ↔ ∃ numeral, text = numeral ++ rest ∧
      Numeral numeral value ∧ ∀ c, rest.head? = some c → c.isDigit = false := by
  constructor
  · intro read
    obtain ⟨sign, split, signed⟩ := scanSign_text (text.dropWhile isSpace)
    unfold scanInt at read
    dsimp only at read
    split at read
    · cases read
    · rename_i some
      cases read
      have whole : text = text.takeWhile isSpace ++ (sign ++
          ((scanSign (text.dropWhile isSpace)).2.takeWhile Char.isDigit ++
            (scanSign (text.dropWhile isSpace)).2.dropWhile Char.isDigit)) := by
        rw [List.takeWhile_append_dropWhile, ← split, List.takeWhile_append_dropWhile]
      refine ⟨text.takeWhile isSpace ++ (sign ++
        (scanSign (text.dropWhile isSpace)).2.takeWhile Char.isDigit), ?_, ?_, ?_⟩
      · simpa using whole
      · refine ⟨_, sign, _, _, _, rfl, List.all_eq_true.mp List.all_takeWhile, signed,
          ⟨?_, ?_, rfl⟩, rfl⟩
        · simpa [List.isEmpty_iff] using some
        · exact List.all_eq_true.mp List.all_takeWhile
      · intro c first
        have stop := List.head?_dropWhile_not Char.isDigit (scanSign (text.dropWhile isSpace)).2
        rw [first] at stop
        simpa using stop
  · rintro ⟨_, rfl, ⟨blanks, sign, digits, negative, n, rfl, spaces, signed, number, rfl⟩, stop⟩
    obtain ⟨read, unspaced⟩ := signed.read number rest
    obtain ⟨taken, dropped⟩ := takeWhile_digits number.all stop
    have skipped : ((blanks ++ (sign ++ digits)) ++ rest).dropWhile isSpace =
        sign ++ (digits ++ rest) := by
      rw [List.append_assoc, List.append_assoc, List.dropWhile_append_of_pos spaces, unspaced]
    have some : digits.isEmpty = false := by simpa using number.nonempty
    unfold scanInt
    simp only [skipped, read, taken, dropped, some, number.value, Bool.false_eq_true, if_false]

/-- `%d` reads a digit string of any length. -/
theorem scanInt_digits {digits : List Char} {n : Nat} (number : Digits digits n)
    {rest : List Char} (stop : ∀ c, rest.head? = some c → c.isDigit = false) :
    scanInt (digits ++ rest) = some (toInt n, rest) :=
  scanInt_eq_some.mpr ⟨digits, rfl, number.numeral, stop⟩

/-- `%d` reads a digit string. -/
theorem scanInt_number {digits : List Char} {n : Nat} (number : Number digits n)
    {rest : List Char} (stop : ∀ c, rest.head? = some c → c.isDigit = false) :
    scanInt (digits ++ rest) = some ((n : Int), rest) := by
  rw [scanInt_digits number.digits stop, toInt_ofNat number.small]

/-! ## One directive after the other -/

/-- A literal character of a format. -/
def expect (c : Char) : List Char → Option (List Char)
  | [] => none
  | d :: text => if c = d then some text else none

/-- White space and then a literal character. -/
def skipLit (c : Char) (text : List Char) : Option (List Char) :=
  expect c (text.dropWhile isSpace)

@[simp] theorem expect_eq_some {c : Char} {text rest : List Char} :
    expect c text = some rest ↔ text = c :: rest := by
  cases text with
  | nil => simp [expect]
  | cons d text =>
    simp only [expect, List.cons.injEq]
    by_cases same : c = d
    · simp [same]
    · simp [same, Ne.symm same]

theorem skipLit_eq_some {c : Char} (visible : isSpace c = false) {text rest : List Char} :
    skipLit c text = some rest ↔
      ∃ blanks, (∀ d ∈ blanks, isSpace d = true) ∧ text = blanks ++ c :: rest := by
  unfold skipLit
  rw [expect_eq_some]
  constructor
  · intro dropped
    refine ⟨text.takeWhile isSpace, List.all_eq_true.mp List.all_takeWhile, ?_⟩
    rw [← dropped, List.takeWhile_append_dropWhile]
  · rintro ⟨blanks, spaces, rfl⟩
    rw [List.dropWhile_append_of_pos spaces, List.dropWhile_cons_of_neg]
    simp [visible]

theorem scan_lit (c : Char) (directives : List Directive) (text : List Char) :
    scan (.lit c :: directives) text = (expect c text).elim [] (scan directives) := by
  cases text with
  | nil => rfl
  | cons d text =>
    simp only [scan, expect]
    split <;> rfl

theorem scan_skipLit (c : Char) (directives : List Directive) (text : List Char) :
    scan (.space :: .lit c :: directives) text = (skipLit c text).elim [] (scan directives) := by
  rw [scan, scan_lit]
  rfl

theorem scan_int (directives : List Directive) (text : List Char) :
    scan (.int :: directives) text =
      (scanInt text).elim [] fun read => read.1 :: scan directives read.2 := by
  rw [scan]
  cases scanInt text <;> rfl

/-- `%d` skips white space by itself. -/
theorem scan_space_int (directives : List Directive) (text : List Char) :
    scan (.space :: .int :: directives) text = scan (.int :: directives) text := by
  have twice : (text.dropWhile isSpace).dropWhile isSpace = text.dropWhile isSpace := by
    induction text with
    | nil => rfl
    | cons c text ih =>
      cases blank : isSpace c with
      | true => simpa [blank] using ih
      | false => simp [blank]
  have same : scanInt (text.dropWhile isSpace) = scanInt text := by
    unfold scanInt
    rw [twice]
  rw [scan, scan_int, scan_int, same]

/-- Every integer that is read fits into an `int`. -/
theorem scan_lt {directives : List Directive} {text : List Char} {value : Int}
    (member : value ∈ scan directives text) : value < 2 ^ 31 := by
  induction directives generalizing text with
  | nil =>
    unfold scan at member
    cases member
  | cons directive directives ih =>
    cases directive with
    | space =>
      unfold scan at member
      exact ih member
    | lit c =>
      cases text with
      | nil =>
        unfold scan at member
        cases member
      | cons d text =>
        unfold scan at member
        split at member
        · exact ih member
        · cases member
    | int =>
      unfold scan at member
      split at member
      · cases member
      · rename_i first rest read
        rcases List.mem_cons.mp member with rfl | later
        · unfold scanInt at read
          dsimp only at read
          split at read
          · cases read
          · cases read
            exact toInt_lt _
        · exact ih later

end ElmWrap.Lib.Scan
