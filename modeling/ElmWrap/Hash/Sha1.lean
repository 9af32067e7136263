import Mathlib.Tactic.IntervalCases
import ElmWrap.Hash.Context
import ElmWrap.InstallEnv.DownloadPackage

/-!
# `sha1.c`

The vendored SHA-1, and the checks of downloaded archives in `package_fetch.c` with it.
A file is read in pieces that are not longer than the buffer.
-/

namespace ElmWrap.Hash

open Lib (absorb bigEndian)
open Lib.SecureHash (State1 rotl)

/-! ## The block function -/

/-- `ROTLEFT`. -/
def rotLeft (a b : UInt32) : UInt32 := (a <<< b) ||| (a >>> (32 - b))

/-- The words `m` of `sha1_transform`. -/
def sha1Words (data : List UInt8) : List UInt32 :=
  let m := (List.range 16).map fun i =>
    (byteAt data (4 * i) <<< 24) + (byteAt data (4 * i + 1) <<< 16) +
      (byteAt data (4 * i + 2) <<< 8) + byteAt data (4 * i + 3)
  (List.range' 16 64).foldl (fun m i =>
    let w := m.getD (i - 3) 0 ^^^ m.getD (i - 8) 0 ^^^ m.getD (i - 14) 0 ^^^ m.getD (i - 16) 0
    m ++ [(w <<< 1) ||| (w >>> 31)]) m

/-- The body of the last four loops of `sha1_transform`, with what they add to `a`. -/
def sha1Round (m : List UInt32) (k : UInt32) (f : UInt32 → UInt32 → UInt32 → UInt32) (v : State1)
    (i : Nat) : State1 :=
  let t := rotLeft v.a 5 + f v.b v.c v.d + v.e + k + m.getD i 0
  { e := v.d, d := v.c, c := rotLeft v.b 30, b := v.a, a := t }

/-- `sha1_transform`, with the constants that `sha1_init` puts into the context. -/
def sha1Transform (state : State1) (data : List UInt8) : State1 :=
  let m := sha1Words data
  let v := (List.range' 0 20).foldl
    (sha1Round m 0x5a827999 fun b c d => (b &&& c) ^^^ (~~~b &&& d)) state
  let v := (List.range' 20 20).foldl (sha1Round m 0x6ed9eba1 fun b c d => b ^^^ c ^^^ d) v
  let v := (List.range' 40 20).foldl
    (sha1Round m 0x8f1bbcdc fun b c d => (b &&& c) ^^^ (b &&& d) ^^^ (c &&& d)) v
  let v := (List.range' 60 20).foldl (sha1Round m 0xca62c1d6 fun b c d => b ^^^ c ^^^ d) v
  { a := state.a + v.a, b := state.b + v.b, c := state.c + v.c, d := state.d + v.d,
    e := state.e + v.e }

/-! ## Contexts -/

/-- The state that `sha1_init` sets. -/
def sha1Start : State1 where
  a := 0x67452301
  b := 0xefcdab89
  c := 0x98badcfe
  d := 0x10325476
  e := 0xc3d2e1f0

/-- `sha1_init`. -/
def sha1Init (ctx : HashCtx State1) : HashCtx State1 := ctx.init sha1Start

/-- `sha1_update`. -/
def sha1Update (ctx : HashCtx State1) (data : List UInt8) : HashCtx State1 :=
  data.foldl (HashCtx.push sha1Transform) ctx

/-- `sha1_final`. -/
def sha1Final (ctx : HashCtx State1) : List UInt8 :=
  let state := ctx.final sha1Transform
  hashBytes [state.a, state.b, state.c, state.d, state.e]

/-- `compute_file_sha1`, for the pieces in which the file is read. -/
def computeFileSha1 (ctx : HashCtx State1) (pieces : List (List UInt8)) : List UInt8 :=
  sha1Final (pieces.foldl sha1Update (sha1Init ctx))

/-- `compute_file_sha1_hex`. -/
def computeFileSha1Hex (ctx : HashCtx State1) (pieces : List (List UInt8)) : String :=
  hexText (computeFileSha1 ctx pieces)

/-! ## The block function of the standard -/

theorem rotLeft_eq (x : UInt32) {n : UInt32} (positive : 0 < n.toNat) (inside : n.toNat < 32) :
    rotLeft x n = rotl n.toNat x :=
  Lib.SecureHash.shifts_rotl x positive inside

/-- The words are the message schedule. -/
theorem sha1Words_eq {data : List UInt8} (whole : data.length = 64) {i : Nat} (inside : i < 80) :
    (sha1Words data).getD i 0 = Lib.SecureHash.schedule1 data i := by
  unfold sha1Words
  refine (Lib.SecureHash.foldl_table (0 : UInt32) (f := Lib.SecureHash.schedule1 data)
    ?_ ?_ ?_ 64).2 i inside
  · rw [List.length_map, List.length_range]
  · intro j first
    rw [List.getD_eq_getElem _ _ (by rwa [List.length_map, List.length_range]), List.getElem_map,
      List.getElem_range, wordAt_add (by omega), Lib.SecureHash.schedule1, if_pos first]
  · intro j table late _ cells
    rw [← Lib.SecureHash.schedule1_table late cells]
    exact rotLeft_eq _ (n := 1) (by decide) (by decide)

/-- Twenty rounds. -/
theorem sha1Rounds_eq {data : List UInt8} (whole : data.length = 64)
    {f : UInt32 → UInt32 → UInt32 → UInt32} {k : UInt32} {first : Nat} (inside : first + 20 ≤ 80)
    (function : ∀ t, first ≤ t → t < first + 20 → Lib.SecureHash.function1 t = f)
    (constant : ∀ t, first ≤ t → t < first + 20 → Lib.SecureHash.constant1 t = k) (v : State1) :
    (List.range' first 20).foldl (sha1Round (sha1Words data) k f) v =
      (List.range' first 20).foldl (fun v t => Lib.SecureHash.round1 (Lib.SecureHash.function1 t)
        (Lib.SecureHash.constant1 t) (Lib.SecureHash.schedule1 data t) v) v := by
  refine List.foldl_ext _ _ _ fun v t member => ?_
  obtain ⟨after, before⟩ := List.mem_range'_1.mp member
  unfold sha1Round Lib.SecureHash.round1
  rw [function t after before, constant t after before, sha1Words_eq whole (by omega),
    rotLeft_eq _ (by decide) (by decide), rotLeft_eq _ (by decide) (by decide)]
  rfl

/-- The block function is the one of the standard. -/
theorem sha1Transform_eq (state : State1) {data : List UInt8} (whole : data.length = 64) :
    sha1Transform state data = Lib.SecureHash.compress1 state data := by
  have phases : List.range 80 = List.range' 0 20 ++ (List.range' 20 20 ++
      (List.range' 40 20 ++ List.range' 60 20)) := rfl
  unfold sha1Transform Lib.SecureHash.compress1
  rw [phases, List.foldl_append, List.foldl_append, List.foldl_append]
  dsimp only
  rw [sha1Rounds_eq whole (show 0 + 20 ≤ 80 by decide),
    sha1Rounds_eq whole (show 20 + 20 ≤ 80 by decide),
    sha1Rounds_eq whole (show 40 + 20 ≤ 80 by decide),
    sha1Rounds_eq whole (show 60 + 20 ≤ 80 by decide)]
  · rfl
  all_goals
    intro t after before
    simp only [Lib.SecureHash.function1, Lib.SecureHash.constant1]
    split_ifs
    all_goals first | rfl | omega

/-! ## Digests -/

theorem sha1Updates_eq (pieces : List (List UInt8)) (ctx : HashCtx State1) :
    pieces.foldl sha1Update ctx = pieces.flatten.foldl (HashCtx.push sha1Transform) ctx := by
  induction pieces generalizing ctx with
  | nil => rfl
  | cons piece pieces ih =>
    rw [List.foldl_cons, ih, List.flatten_cons, List.foldl_append]
    rfl

/-- However a file is read, the digest is the SHA-1 of its bytes. -/
theorem computeFileSha1_eq (ctx : HashCtx State1) (pieces : List (List UInt8)) :
    computeFileSha1 ctx pieces = Lib.SecureHash.sha1 pieces.flatten := by
  have holds := (HashCtx.Holds.init sha1Transform ctx sha1Start).pushes sha1Transform
    pieces.flatten
  unfold computeFileSha1 sha1Final sha1Init
  rw [sha1Updates_eq, hashBytes_eq, holds.final]
  unfold Lib.blockHash
  rw [Lib.absorb_congr 64 sha1Transform fun state block whole => sha1Transform_eq state whole]
  rfl

theorem length_sha1 (message : List UInt8) :
    (Lib.SecureHash.sha1 message).length = sha1BlockSize := by
  unfold Lib.SecureHash.sha1 Lib.SecureHash.digest Lib.SecureHash.State1.words
  simp only [List.flatMap_cons, List.flatMap_nil, List.length_append, Lib.length_bigEndian,
    List.length_nil]
  rfl

/-! ## Texts of digests -/

/-- The values of the digits of a byte. -/
def nibbles (byte : UInt8) : List (Option Nat) := [some (byte.toNat / 16), some (byte.toNat % 16)]

theorem hexCharToInt_lt {c : Char} {n : Nat} (digit : hexCharToInt c = some n) : n < 16 := by
  unfold hexCharToInt at digit
  split_ifs at digit with decimal lower upper
  · obtain ⟨-, high⟩ := Bool.and_eq_true_iff.mp decimal
    have high : c.toNat ≤ 57 := of_decide_eq_true high
    cases digit
    change c.toNat - 48 < 16
    omega
  · obtain ⟨-, high⟩ := Bool.and_eq_true_iff.mp lower
    have high : c.toNat ≤ 102 := of_decide_eq_true high
    cases digit
    change c.toNat - 97 + 10 < 16
    omega
  · obtain ⟨-, high⟩ := Bool.and_eq_true_iff.mp upper
    have high : c.toNat ≤ 70 := of_decide_eq_true high
    cases digit
    change c.toNat - 65 + 10 < 16
    omega

theorem nibbles_ofNat {h l : Nat} (high : h < 16) (low : l < 16) :
    nibbles (UInt8.ofNat (h * 16 + l)) = [some h, some l] := by
  have value : (UInt8.ofNat (h * 16 + l)).toNat = h * 16 + l := by
    rw [UInt8.toNat_ofNat']
    omega
  have first : (h * 16 + l) / 16 = h := by omega
  have second : (h * 16 + l) % 16 = l := by omega
  unfold nibbles
  rw [value, first, second]

theorem nibbles_inj {byte : UInt8} {h l : Nat} (same : [some h, some l] = nibbles byte) :
    UInt8.ofNat (h * 16 + l) = byte := by
  unfold nibbles at same
  simp only [List.cons.injEq, Option.some.injEq, and_true] at same
  refine UInt8.toNat_inj.mp ?_
  have small := byte.toNat_lt
  rw [UInt8.toNat_ofNat', same.1, same.2]
  omega

/-- A text is read as the bytes whose digits it has, in upper case or lower case. -/
theorem hexBytes_iff {chars : List Char} {bytes : List UInt8} :
    hexBytes chars = some bytes ↔ chars.map hexCharToInt = bytes.flatMap nibbles := by
  induction chars using hexBytes.induct generalizing bytes with
  | case1 => cases bytes <;> simp [hexBytes, nibbles]
  | case2 c => cases bytes <;> simp [hexBytes, nibbles]
  | case3 high low rest h l bs read second first ih =>
    have value : hexBytes (high :: low :: rest) = some (UInt8.ofNat (h * 16 + l) :: bs) := by
      simp only [hexBytes, first, second, read]
    have digits : rest.map hexCharToInt = bs.flatMap nibbles := ih.mp read
    rw [value, List.map_cons, List.map_cons, first, second, digits]
    constructor
    · intro same
      cases same
      rw [List.flatMap_cons, nibbles_ofNat (hexCharToInt_lt first) (hexCharToInt_lt second)]
      rfl
    · intro same
      cases bytes with
      | nil => cases same
      | cons byte bytes =>
        have both : [some h, some l].length = (nibbles byte).length := rfl
        obtain ⟨here, later⟩ := List.append_inj same both
        rw [nibbles_inj here]
        have same : hexBytes rest = some bytes := ih.mpr (digits.trans later)
        rw [read] at same
        rw [Option.some.inj same]
  | case4 high low rest none_ ih =>
    have value : hexBytes (high :: low :: rest) = none := by
      unfold hexBytes
      cases first : hexCharToInt high with
      | none => rfl
      | some h =>
        cases second : hexCharToInt low with
        | none => rfl
        | some l =>
          cases read : hexBytes rest with
          | none => rfl
          | some bs => exact (none_ h l bs first second read).elim
    rw [value]
    refine iff_of_false (Option.some_ne_none _).symm fun same => ?_
    cases bytes with
    | nil => cases same
    | cons byte bytes =>
      have both : [hexCharToInt high, hexCharToInt low].length = (nibbles byte).length := rfl
      obtain ⟨here, later⟩ := List.append_inj same both
      unfold nibbles at here
      simp only [List.cons.injEq, and_true] at here
      exact none_ _ _ _ here.1 here.2 (ih.mpr later)

theorem hexCharToInt_digitChar {n : Nat} (small : n < 16) :
    hexCharToInt (Nat.digitChar n) = some n := by
  interval_cases n
  all_goals rfl

theorem hexText_digits (hash : List UInt8) :
    (hexText hash).toList.map hexCharToInt = hash.flatMap nibbles := by
  unfold hexText
  rw [String.toList_ofList, List.map_flatMap]
  refine List.flatMap_congr fun byte _ => ?_
  have small := byte.toNat_lt
  unfold hexDigits nibbles
  rw [List.map_cons, List.map_cons, List.map_nil, hexCharToInt_digitChar (by omega),
    hexCharToInt_digitChar (by omega)]

theorem length_nibbles (hash : List UInt8) : (hash.flatMap nibbles).length = hash.length * 2 := by
  induction hash with
  | nil => rfl
  | cons byte hash ih =>
    rw [List.flatMap_cons, List.length_append, ih, List.length_cons]
    unfold nibbles
    rw [List.length_cons, List.length_singleton]
    omega

/-- A character has the value of a digit where it is the digit, in upper case or lower case. -/
theorem hexCharToInt_iff {c : Char} {n : Nat} (small : n < 16) :
    hexCharToInt c = some n ↔ c.toLower = Nat.digitChar n := by
  by_cases ascii : c.toNat < 128
  · have all : ∀ k < 128, ∀ n < 16, hexCharToInt (Char.ofNat k) = some n ↔
        (Char.ofNat k).toLower = Nat.digitChar n := by decide +kernel
    have this := all c.toNat ascii n small
    rwa [Char.ofNat_toNat] at this
  · refine iff_of_false (fun digit => ?_) (fun same => ?_)
    · unfold hexCharToInt at digit
      split_ifs at digit with decimal lower upper
      · have high : c.toNat ≤ 57 := of_decide_eq_true (Bool.and_eq_true_iff.mp decimal).2
        omega
      · have high : c.toNat ≤ 102 := of_decide_eq_true (Bool.and_eq_true_iff.mp lower).2
        omega
      · have high : c.toNat ≤ 70 := of_decide_eq_true (Bool.and_eq_true_iff.mp upper).2
        omega
    · have digits : ∀ n < 16, (Nat.digitChar n).toNat < 128 := by decide
      have kept : c.toLower = c := by
        unfold Char.toLower
        refine dif_neg fun upper => ascii ?_
        have high : c.toNat ≤ 90 := upper.2
        omega
      rw [kept] at same
      exact ascii (same ▸ digits n small)

theorem digits_iff {chars : List Char} {hash : List UInt8} :
    chars.map hexCharToInt = hash.flatMap nibbles ↔
      chars.map Char.toLower = (hexText hash).toList := by
  unfold hexText
  rw [String.toList_ofList]
  induction hash generalizing chars with
  | nil => simp
  | cons byte hash ih =>
    have small := byte.toNat_lt
    rw [List.flatMap_cons, List.flatMap_cons]
    match chars with
    | [] => simp [nibbles, hexDigits]
    | [c] => simp [nibbles, hexDigits]
    | high :: low :: rest =>
      simp only [nibbles, hexDigits, List.map_cons, List.cons_append, List.nil_append,
        List.cons.injEq, ih, hexCharToInt_iff (show byte.toNat / 16 < 16 by omega),
        hexCharToInt_iff (show byte.toNat % 16 < 16 by omega)]

/-- How a file with some contents is read. -/
structure FileReads where
  pieces : List UInt8 → List (List UInt8)
  whole : ∀ contents, (pieces contents).flatten = contents

/-- The digest of the file. -/
def FileReads.sha1 (reads : FileReads) (ctx : HashCtx State1) (contents : List UInt8) :
    List UInt8 :=
  computeFileSha1 ctx (reads.pieces contents)

/-- An archive is accepted exactly with the text of the SHA-1 of its bytes, in upper case or lower
case, and so with the one that is written of it. -/
theorem verifyFileSha1_iff (ctx : HashCtx State1) (reads : FileReads) (contents : List UInt8)
    (expectedHex : String) :
    (verifyFileSha1 (reads.sha1 ctx) contents expectedHex = true ↔
      expectedHex.toList.map Char.toLower =
        (hexText (Lib.SecureHash.sha1 contents)).toList) ∧
    verifyFileSha1 (reads.sha1 ctx) contents (computeFileSha1Hex ctx (reads.pieces contents)) =
      true := by
  have accepts : ∀ hex, verifyFileSha1 (reads.sha1 ctx) contents hex = true ↔
      hex.toList.map hexCharToInt = (Lib.SecureHash.sha1 contents).flatMap nibbles := by
    intro hex
    unfold verifyFileSha1 hexStringToBytes FileReads.sha1
    rw [decide_eq_true_iff, computeFileSha1_eq, reads.whole, ← hexBytes_iff]
    split
    · rename_i other
      refine iff_of_false (Option.some_ne_none _).symm fun same => other ?_
      have lengths := congrArg List.length (hexBytes_iff.mp same)
      rwa [List.length_map, length_nibbles, length_sha1] at lengths
    · rfl
  refine ⟨(accepts expectedHex).trans digits_iff, (accepts _).mpr ?_⟩
  unfold computeFileSha1Hex
  rw [hexText_digits, computeFileSha1_eq, reads.whole]

end ElmWrap.Hash
