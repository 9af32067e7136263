import ElmWrap.Hash.Context

/-!
# `sha256.c`

The vendored SHA-256. The loop of `sha256_update` counts with 32 bits and is told the
length in 64.
-/

namespace ElmWrap.Hash

open Lib (absorb bigEndian)
open Lib.SecureHash (State256 rotr)

/-! ## The block function -/

/-- `ROTRIGHT`. -/
def rotRight (a b : UInt32) : UInt32 := (a >>> b) ||| (a <<< (32 - b))

/-- `CH`. -/
def ch (x y z : UInt32) : UInt32 := (x &&& y) ^^^ (~~~x &&& z)

/-- `MAJ`. -/
def maj (x y z : UInt32) : UInt32 := (x &&& y) ^^^ (x &&& z) ^^^ (y &&& z)

/-- `EP0`. -/
def ep0 (x : UInt32) : UInt32 := rotRight x 2 ^^^ rotRight x 13 ^^^ rotRight x 22

/-- `EP1`. -/
def ep1 (x : UInt32) : UInt32 := rotRight x 6 ^^^ rotRight x 11 ^^^ rotRight x 25

/-- `SIG0`. -/
def sig0 (x : UInt32) : UInt32 := rotRight x 7 ^^^ rotRight x 18 ^^^ (x >>> 3)

/-- `SIG1`. -/
def sig1 (x : UInt32) : UInt32 := rotRight x 17 ^^^ rotRight x 19 ^^^ (x >>> 10)

/-- `k`. -/
def k : List UInt32 :=
  [0x428a2f98, 0x71374491, 0xb5c0fbcf, 0xe9b5dba5, 0x3956c25b, 0x59f111f1, 0x923f82a4, 0xab1c5ed5,
    0xd807aa98, 0x12835b01, 0x243185be, 0x550c7dc3, 0x72be5d74, 0x80deb1fe, 0x9bdc06a7, 0xc19bf174,
    0xe49b69c1, 0xefbe4786, 0x0fc19dc6, 0x240ca1cc, 0x2de92c6f, 0x4a7484aa, 0x5cb0a9dc, 0x76f988da,
    0x983e5152, 0xa831c66d, 0xb00327c8, 0xbf597fc7, 0xc6e00bf3, 0xd5a79147, 0x06ca6351, 0x14292967,
    0x27b70a85, 0x2e1b2138, 0x4d2c6dfc, 0x53380d13, 0x650a7354, 0x766a0abb, 0x81c2c92e, 0x92722c85,
    0xa2bfe8a1, 0xa81a664b, 0xc24b8b70, 0xc76c51a3, 0xd192e819, 0xd6990624, 0xf40e3585, 0x106aa070,
    0x19a4c116, 0x1e376c08, 0x2748774c, 0x34b0bcb5, 0x391c0cb3, 0x4ed8aa4a, 0x5b9cca4f, 0x682e6ff3,
    0x748f82ee, 0x78a5636f, 0x84c87814, 0x8cc70208, 0x90befffa, 0xa4506ceb, 0xbef9a3f7, 0xc67178f2]

/-- The words `m` of `sha256_transform`. -/
def sha256Words (data : List UInt8) : List UInt32 :=
  let m := (List.range 16).map fun i =>
    (byteAt data (4 * i) <<< 24) ||| (byteAt data (4 * i + 1) <<< 16) |||
      (byteAt data (4 * i + 2) <<< 8) ||| byteAt data (4 * i + 3)
  (List.range' 16 48).foldl (fun m i =>
    m ++ [sig1 (m.getD (i - 2) 0) + m.getD (i - 7) 0 + sig0 (m.getD (i - 15) 0) +
      m.getD (i - 16) 0]) m

/-- The body of the last loop of `sha256_transform`. -/
def sha256Round (m : List UInt32) (v : State256) (i : Nat) : State256 :=
  let t1 := v.h + ep1 v.e + ch v.e v.f v.g + k.getD i 0 + m.getD i 0
  let t2 := ep0 v.a + maj v.a v.b v.c
  { h := v.g, g := v.f, f := v.e, e := v.d + t1, d := v.c, c := v.b, b := v.a, a := t1 + t2 }

/-- `sha256_transform`. -/
def sha256Transform (state : State256) (data : List UInt8) : State256 :=
  let m := sha256Words data
  let v := (List.range 64).foldl (sha256Round m) state
  { a := state.a + v.a, b := state.b + v.b, c := state.c + v.c, d := state.d + v.d,
    e := state.e + v.e, f := state.f + v.f, g := state.g + v.g, h := state.h + v.h }

/-! ## Contexts -/

/-- The state that `sha256_init` sets. -/
def sha256Start : State256 where
  a := 0x6a09e667
  b := 0xbb67ae85
  c := 0x3c6ef372
  d := 0xa54ff53a
  e := 0x510e527f
  f := 0x9b05688c
  g := 0x1f83d9ab
  h := 0x5be0cd19

/-- `sha256_init`. -/
def sha256Init (ctx : HashCtx State256) : HashCtx State256 := ctx.init sha256Start

/-- The loop of `sha256_update`, as far as some number of steps; `i` is a `WORD`. -/
def sha256UpdateLoop (data : List UInt8) : Nat → UInt32 → HashCtx State256 →
    Option (HashCtx State256)
  | 0, _, _ => none
  | steps + 1, i, ctx =>
    if i.toNat < data.length then
      sha256UpdateLoop data steps (i + 1) (ctx.push sha256Transform (data.getD i.toNat 0))
    else some ctx

/-- `sha256_update`; `none` where the loop does not end. -/
def sha256Update (ctx : HashCtx State256) (data : List UInt8) : Option (HashCtx State256) :=
  sha256UpdateLoop data (data.length + 1) 0 ctx

/-- `sha256_final`. -/
def sha256Final (ctx : HashCtx State256) : List UInt8 :=
  let state := ctx.final sha256Transform
  hashBytes [state.a, state.b, state.c, state.d, state.e, state.f, state.g, state.h]

/-- The digest of a message in pieces, with a call of `sha256_update` for each. -/
def sha256Pieces (ctx : HashCtx State256) (pieces : List (List UInt8)) : Option (List UInt8) :=
  (pieces.foldlM sha256Update (sha256Init ctx)).map sha256Final

/-! ## The block function of the standard -/

theorem rotRight_eq (x : UInt32) {n : UInt32} (positive : 0 < n.toNat) (inside : n.toNat < 32) :
    rotRight x n = rotr n.toNat x :=
  Lib.SecureHash.shifts_rotr x positive inside

theorem ep0_eq (x : UInt32) : ep0 x = Lib.SecureHash.bigSigma0 x := by
  unfold ep0
  rw [rotRight_eq x (by decide) (by decide), rotRight_eq x (by decide) (by decide),
    rotRight_eq x (by decide) (by decide)]
  rfl

theorem ep1_eq (x : UInt32) : ep1 x = Lib.SecureHash.bigSigma1 x := by
  unfold ep1
  rw [rotRight_eq x (by decide) (by decide), rotRight_eq x (by decide) (by decide),
    rotRight_eq x (by decide) (by decide)]
  rfl

theorem sig0_eq (x : UInt32) : sig0 x = Lib.SecureHash.smallSigma0 x := by
  unfold sig0
  rw [rotRight_eq x (by decide) (by decide), rotRight_eq x (by decide) (by decide)]
  rfl

theorem sig1_eq (x : UInt32) : sig1 x = Lib.SecureHash.smallSigma1 x := by
  unfold sig1
  rw [rotRight_eq x (by decide) (by decide), rotRight_eq x (by decide) (by decide)]
  rfl

/-- The constants are those of the cube roots. -/
theorem k_roots : k = Lib.SecureHash.primes.map (Lib.SecureHash.rootFraction 3) := by
  decide +kernel

/-- The initial state is that of the square roots. -/
theorem sha256Start_roots : sha256Start = Lib.SecureHash.start256 := by
  decide +kernel

/-- The words are the message schedule. -/
theorem sha256Words_eq {data : List UInt8} (whole : data.length = 64) {i : Nat} (inside : i < 64) :
    (sha256Words data).getD i 0 = Lib.SecureHash.schedule256 data i := by
  unfold sha256Words
  refine (Lib.SecureHash.foldl_table (0 : UInt32) (f := Lib.SecureHash.schedule256 data)
    ?_ ?_ ?_ 48).2 i inside
  · rw [List.length_map, List.length_range]
  · intro j first
    rw [List.getD_eq_getElem _ _ (by rwa [List.length_map, List.length_range]), List.getElem_map,
      List.getElem_range, wordAt_or (by omega), Lib.SecureHash.schedule256, if_pos first]
  · intro j table late _ cells
    rw [sig1_eq, sig0_eq]
    exact Lib.SecureHash.schedule256_table late cells

theorem sha256Round_eq {data : List UInt8} (whole : data.length = 64) {i : Nat} (inside : i < 64)
    (v : State256) :
    sha256Round (sha256Words data) v i = Lib.SecureHash.round256
      (Lib.SecureHash.rootFraction 3 (Lib.SecureHash.primes.getD i 0))
      (Lib.SecureHash.schedule256 data i) v := by
  have constant : k.getD i 0 =
      Lib.SecureHash.rootFraction 3 (Lib.SecureHash.primes.getD i 0) := by
    have listed : i < Lib.SecureHash.primes.length := inside
    rw [k_roots, List.getD_eq_getElem _ _ (by rwa [List.length_map]), List.getElem_map,
      List.getD_eq_getElem _ _ listed]
  unfold sha256Round Lib.SecureHash.round256
  rw [sha256Words_eq whole inside, constant, ep0_eq, ep1_eq]
  rfl

/-- The block function is the one of the standard. -/
theorem sha256Transform_eq (state : State256) {data : List UInt8} (whole : data.length = 64) :
    sha256Transform state data = Lib.SecureHash.compress256 state data := by
  have rounds : (List.range 64).foldl (sha256Round (sha256Words data)) state =
      (List.range 64).foldl (fun v t => Lib.SecureHash.round256
        (Lib.SecureHash.rootFraction 3 (Lib.SecureHash.primes.getD t 0))
        (Lib.SecureHash.schedule256 data t) v) state :=
    List.foldl_ext _ _ _ fun v i inside => sha256Round_eq whole (List.mem_range.mp inside) v
  unfold sha256Transform Lib.SecureHash.compress256
  dsimp only
  rw [rounds]
  rfl

/-! ## Updates -/

/-- The counter reaches a length of 32 bits. -/
theorem sha256UpdateLoop_ends {data : List UInt8} (short : data.length < 2 ^ 32) {steps : Nat}
    {i : UInt32} (here : i.toNat + steps = data.length + 1) (before : 0 < steps)
    (ctx : HashCtx State256) :
    sha256UpdateLoop data steps i ctx =
      some ((data.drop i.toNat).foldl (HashCtx.push sha256Transform) ctx) := by
  induction steps generalizing i ctx with
  | zero => exact absurd before (Nat.lt_irrefl 0)
  | succ steps ih =>
    unfold sha256UpdateLoop
    split
    · rename_i inside
      have next : (i + 1).toNat = i.toNat + 1 := by
        rw [UInt32.toNat_add]
        exact Nat.mod_eq_of_lt (by
          have : (1 : UInt32).toNat = 1 := rfl
          omega)
      rw [ih (by omega) (by omega), next, List.drop_eq_getElem_cons inside, List.foldl_cons,
        List.getD_eq_getElem _ _ inside]
    · rename_i outside
      rw [List.drop_eq_nil_of_le (by omega), List.foldl_nil]

/-- It never reaches a greater one. -/
theorem sha256UpdateLoop_endless {data : List UInt8} (long : 2 ^ 32 ≤ data.length) (steps : Nat)
    (i : UInt32) (ctx : HashCtx State256) : sha256UpdateLoop data steps i ctx = none := by
  induction steps generalizing i ctx with
  | zero => rfl
  | succ steps ih =>
    unfold sha256UpdateLoop
    rw [if_pos (i.toNat_lt.trans_le long)]
    exact ih _ _

theorem sha256Update_eq (ctx : HashCtx State256) (data : List UInt8) :
    sha256Update ctx data =
      if data.length < 2 ^ 32 then some (data.foldl (HashCtx.push sha256Transform) ctx)
      else none := by
  unfold sha256Update
  split
  · rename_i short
    exact sha256UpdateLoop_ends short (Nat.zero_add _) (Nat.succ_pos _) ctx
  · rename_i long
    exact sha256UpdateLoop_endless (not_lt.mp long) _ _ _

theorem sha256Updates_eq (pieces : List (List UInt8)) (ctx : HashCtx State256) :
    pieces.foldlM sha256Update ctx =
      if ∀ piece ∈ pieces, piece.length < 2 ^ 32 then
        some (pieces.flatten.foldl (HashCtx.push sha256Transform) ctx)
      else none := by
  induction pieces generalizing ctx with
  | nil => rfl
  | cons piece pieces ih =>
    rw [List.foldlM_cons, sha256Update_eq]
    by_cases short : piece.length < 2 ^ 32
    · rw [if_pos short, Option.bind_eq_bind, Option.bind_some, ih, List.flatten_cons,
        List.foldl_append]
      simp only [List.forall_mem_cons, short, true_and]
    · rw [if_neg short, if_neg]
      · rfl
      · exact fun all => short (all piece List.mem_cons_self)

/-! ## Digests -/

theorem sha256Final_eq {ctx : HashCtx State256} {start : State256} {text : List UInt8}
    (holds : ctx.Holds sha256Transform start text) :
    sha256Final ctx = Lib.SecureHash.digest
      (Lib.blockHash 64 8 Lib.SecureHash.compress256 start text).words := by
  unfold sha256Final
  rw [hashBytes_eq, holds.final]
  unfold Lib.blockHash
  rw [Lib.absorb_congr 64 sha256Transform fun state block whole => sha256Transform_eq state whole]
  rfl

theorem sha256Final_pushes (ctx : HashCtx State256) (message : List UInt8) :
    sha256Final (message.foldl (HashCtx.push sha256Transform) (sha256Init ctx)) =
      Lib.SecureHash.sha256 message := by
  have holds := (HashCtx.Holds.init sha256Transform ctx sha256Start).pushes sha256Transform message
  rw [sha256Init, sha256Final_eq holds, sha256Start_roots]
  rfl

/-- However a message is cut into pieces, and whatever the context holds at first, the digest is
the SHA-256 of the message; a piece of four gigabytes or more is never done with. -/
theorem sha256Pieces_eq (ctx : HashCtx State256) (pieces : List (List UInt8)) :
    sha256Pieces ctx pieces =
      if ∀ piece ∈ pieces, piece.length < 2 ^ 32 then
        some (Lib.SecureHash.sha256 pieces.flatten)
      else none := by
  unfold sha256Pieces
  rw [sha256Updates_eq]
  split
  · rw [Option.map_some, sha256Final_pushes]
  · rfl

end ElmWrap.Hash
