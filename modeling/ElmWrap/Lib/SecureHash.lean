import Mathlib.Data.List.GetD
import ElmWrap.Lib.BlockHash

/-!
# SHA-1 and SHA-256

The hash functions of FIPS 180 for messages of whole bytes, over the blocks of a padded
message. The round constants of SHA-256 are given by the cube roots of the first primes
and its initial state by the square roots.
-/

namespace ElmWrap.Lib.SecureHash

/-! ## Words -/

/-- A word with its bits rotated to the left. -/
def rotl (n : Nat) (x : UInt32) : UInt32 := ⟨x.toBitVec.rotateLeft n⟩

/-- A word with its bits rotated to the right. -/
def rotr (n : Nat) (x : UInt32) : UInt32 := ⟨x.toBitVec.rotateRight n⟩

def ch (x y z : UInt32) : UInt32 := (x &&& y) ^^^ (~~~x &&& z)

def parity (x y z : UInt32) : UInt32 := x ^^^ y ^^^ z

def maj (x y z : UInt32) : UInt32 := (x &&& y) ^^^ (x &&& z) ^^^ (y &&& z)

/-- The number whose bytes these are, the most significant one first. -/
def ofBytes (bytes : List UInt8) : Nat := bytes.foldl (fun n byte => n * 256 + byte.toNat) 0

/-- A word of a block. -/
def wordAt (block : List UInt8) (t : Nat) : UInt32 :=
  UInt32.ofNat (ofBytes ((block.drop (4 * t)).take 4))

/-- The bytes of the words. -/
def digest (words : List UInt32) : List UInt8 := words.flatMap fun word => bigEndian 4 word.toNat

/-! ## SHA-256 -/

/-- The greatest number below `2 ^ bits` whose power is at most `n`. -/
def root (degree bits n : Nat) : Nat :=
  (List.range bits).foldr (fun i r => if (r + 2 ^ i) ^ degree ≤ n then r + 2 ^ i else r) 0

/-- The first 32 bits of the fractional part of a root. -/
def rootFraction (degree p : Nat) : UInt32 := UInt32.ofNat (root degree 37 (p * 2 ^ (32 * degree)))

/-- The first 64 primes. -/
def primes : List Nat :=
  [2, 3, 5, 7, 11, 13, 17, 19, 23, 29, 31, 37, 41, 43, 47, 53, 59, 61, 67, 71, 73, 79, 83, 89, 97,
    101, 103, 107, 109, 113, 127, 131, 137, 139, 149, 151, 157, 163, 167, 173, 179, 181, 191, 193,
    197, 199, 211, 223, 227, 229, 233, 239, 241, 251, 257, 263, 269, 271, 277, 281, 283, 293, 307,
    311]

/-- The words of a state of SHA-256. -/
structure State256 where
  (a b c d e f g h : UInt32)
deriving DecidableEq

def State256.words (s : State256) : List UInt32 := [s.a, s.b, s.c, s.d, s.e, s.f, s.g, s.h]

def State256.add (s v : State256) : State256 :=
  ⟨s.a + v.a, s.b + v.b, s.c + v.c, s.d + v.d, s.e + v.e, s.f + v.f, s.g + v.g, s.h + v.h⟩

/-- The initial state. -/
def start256 : State256 :=
  ⟨rootFraction 2 2, rootFraction 2 3, rootFraction 2 5, rootFraction 2 7, rootFraction 2 11,
    rootFraction 2 13, rootFraction 2 17, rootFraction 2 19⟩

def bigSigma0 (x : UInt32) : UInt32 := rotr 2 x ^^^ rotr 13 x ^^^ rotr 22 x

def bigSigma1 (x : UInt32) : UInt32 := rotr 6 x ^^^ rotr 11 x ^^^ rotr 25 x

def smallSigma0 (x : UInt32) : UInt32 := rotr 7 x ^^^ rotr 18 x ^^^ x >>> 3

def smallSigma1 (x : UInt32) : UInt32 := rotr 17 x ^^^ rotr 19 x ^^^ x >>> 10

/-- The message schedule. -/
def schedule256 (block : List UInt8) (t : Nat) : UInt32 :=
  if t < 16 then wordAt block t
  else
    smallSigma1 (schedule256 block (t - 2)) + schedule256 block (t - 7) +
      smallSigma0 (schedule256 block (t - 15)) + schedule256 block (t - 16)
termination_by t

/-- A round with its constant and its word of the schedule. -/
def round256 (k w : UInt32) (v : State256) : State256 :=
  let t1 := v.h + bigSigma1 v.e + ch v.e v.f v.g + k + w
  let t2 := bigSigma0 v.a + maj v.a v.b v.c
  ⟨t1 + t2, v.a, v.b, v.c, v.d + t1, v.e, v.f, v.g⟩

/-- The state after a block. -/
def compress256 (s : State256) (block : List UInt8) : State256 :=
  s.add ((List.range 64).foldl (fun v t =>
    round256 (rootFraction 3 (primes.getD t 0)) (schedule256 block t) v) s)

/-- SHA-256. -/
def sha256 (message : List UInt8) : List UInt8 :=
  digest (blockHash 64 8 compress256 start256 message).words

/-! ## SHA-1 -/

/-- The words of a state of SHA-1. -/
structure State1 where
  (a b c d e : UInt32)
deriving DecidableEq

def State1.words (s : State1) : List UInt32 := [s.a, s.b, s.c, s.d, s.e]

def State1.add (s v : State1) : State1 :=
  ⟨s.a + v.a, s.b + v.b, s.c + v.c, s.d + v.d, s.e + v.e⟩

/-- The initial state. -/
def start1 : State1 := ⟨0x67452301, 0xefcdab89, 0x98badcfe, 0x10325476, 0xc3d2e1f0⟩

/-- The message schedule. -/
def schedule1 (block : List UInt8) (t : Nat) : UInt32 :=
  if t < 16 then wordAt block t
  else
    rotl 1 (schedule1 block (t - 3) ^^^ schedule1 block (t - 8) ^^^ schedule1 block (t - 14) ^^^
      schedule1 block (t - 16))
termination_by t

/-- The function of a round. -/
def function1 (t : Nat) : UInt32 → UInt32 → UInt32 → UInt32 :=
  if t < 20 then ch else if t < 40 then parity else if t < 60 then maj else parity

/-- The constant of a round. -/
def constant1 (t : Nat) : UInt32 :=
  if t < 20 then 0x5a827999 else if t < 40 then 0x6ed9eba1 else if t < 60 then 0x8f1bbcdc
  else 0xca62c1d6

/-- A round. -/
def round1 (f : UInt32 → UInt32 → UInt32 → UInt32) (k w : UInt32) (v : State1) : State1 :=
  ⟨rotl 5 v.a + f v.b v.c v.d + v.e + k + w, v.a, rotl 30 v.b, v.c, v.d⟩

/-- The state after a block. -/
def compress1 (s : State1) (block : List UInt8) : State1 :=
  s.add ((List.range 80).foldl (fun v t =>
    round1 (function1 t) (constant1 t) (schedule1 block t) v) s)

/-- SHA-1. -/
def sha1 (message : List UInt8) : List UInt8 :=
  digest (blockHash 64 8 compress1 start1 message).words

/-! ## Rotations by two shifts -/

theorem shift_toNat {n : UInt32} (inside : n.toNat < 32) : (n.toBitVec % 32).toNat = n.toNat := by
  rw [BitVec.toNat_umod]
  exact Nat.mod_eq_of_lt inside

theorem rest_toNat {n : UInt32} (inside : n.toNat < 32) : (32 - n).toNat = 32 - n.toNat := by
  rw [UInt32.toNat_sub_of_le]
  · rfl
  · exact UInt32.le_iff_toNat_le.mpr inside.le

theorem shifts_rotl (x : UInt32) {n : UInt32} (positive : 0 < n.toNat) (inside : n.toNat < 32) :
    x <<< n ||| x >>> (32 - n) = rotl n.toNat x := by
  have rest : (32 - n).toNat < 32 := by
    rw [rest_toNat inside]
    omega
  refine UInt32.toBitVec_inj.mp ?_
  unfold rotl
  rw [BitVec.rotateLeft_def, UInt32.toBitVec_or, UInt32.toBitVec_shiftLeft,
    UInt32.toBitVec_shiftRight, BitVec.shiftLeft_eq', BitVec.ushiftRight_eq', shift_toNat inside,
    shift_toNat rest, rest_toNat inside, Nat.mod_eq_of_lt inside]

theorem shifts_rotr (x : UInt32) {n : UInt32} (positive : 0 < n.toNat) (inside : n.toNat < 32) :
    x >>> n ||| x <<< (32 - n) = rotr n.toNat x := by
  have rest : (32 - n).toNat < 32 := by
    rw [rest_toNat inside]
    omega
  refine UInt32.toBitVec_inj.mp ?_
  unfold rotr
  rw [BitVec.rotateRight_def, UInt32.toBitVec_or, UInt32.toBitVec_shiftLeft,
    UInt32.toBitVec_shiftRight, BitVec.shiftLeft_eq', BitVec.ushiftRight_eq', shift_toNat inside,
    shift_toNat rest, rest_toNat inside, Nat.mod_eq_of_lt inside]

/-! ## Tables -/

/-- A table that is continued cell by cell from the ones before has the cells of a sequence that
is. -/
theorem foldl_table {Word : Type} (d : Word) {f : Nat → Word} {next : Nat → List Word → Word}
    {m : List Word} {start : Nat} (first : m.length = start) (here : ∀ j < start, m.getD j d = f j)
    (step : ∀ (i : Nat) (m : List Word), start ≤ i → m.length = i →
      (∀ j < i, m.getD j d = f j) → next i m = f i) (n : Nat) :
    ((List.range' start n).foldl (fun m i => m ++ [next i m]) m).length = start + n ∧
      ∀ j < start + n,
        ((List.range' start n).foldl (fun m i => m ++ [next i m]) m).getD j d = f j := by
  induction n with
  | zero => exact ⟨first, here⟩
  | succ n ih =>
    obtain ⟨long, cells⟩ := ih
    rw [List.range'_concat, List.foldl_append, Nat.one_mul]
    generalize (List.range' start n).foldl (fun m i => m ++ [next i m]) m = table at long cells
    rw [List.foldl_cons, List.foldl_nil]
    refine ⟨by rw [List.length_append, long, List.length_singleton, Nat.add_assoc], ?_⟩
    intro j below
    rcases (by omega : j < start + n ∨ j = start + n) with old | rfl
    · rw [List.getD_append _ _ _ _ (by omega)]
      exact cells j old
    · rw [List.getD_append_right _ _ _ _ long.le, long, Nat.sub_self, List.getD_cons_zero]
      exact step _ table (Nat.le_add_right _ _) long cells

theorem schedule256_table {block : List UInt8} {table : List UInt32} {i : Nat} (late : 16 ≤ i)
    (cells : ∀ j < i, table.getD j 0 = schedule256 block j) :
    smallSigma1 (table.getD (i - 2) 0) + table.getD (i - 7) 0 +
      smallSigma0 (table.getD (i - 15) 0) + table.getD (i - 16) 0 = schedule256 block i := by
  conv_rhs => rw [schedule256]
  rw [if_neg (by omega), cells _ (by omega), cells _ (by omega), cells _ (by omega),
    cells _ (by omega)]

theorem schedule1_table {block : List UInt8} {table : List UInt32} {i : Nat} (late : 16 ≤ i)
    (cells : ∀ j < i, table.getD j 0 = schedule1 block j) :
    rotl 1 (table.getD (i - 3) 0 ^^^ table.getD (i - 8) 0 ^^^ table.getD (i - 14) 0 ^^^
      table.getD (i - 16) 0) = schedule1 block i := by
  conv_rhs => rw [schedule1]
  rw [if_neg (by omega), cells _ (by omega), cells _ (by omega), cells _ (by omega),
    cells _ (by omega)]

end ElmWrap.Lib.SecureHash
