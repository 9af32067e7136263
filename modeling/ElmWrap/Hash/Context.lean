import ElmWrap.Lib.SecureHash

/-!
# A hash that is fed piece by piece

The contexts of `sha1.c` and `sha256.c` and what both files do alike: bytes are
collected in a buffer of 64, which is put into the state when it is full. Old bytes stay in
the buffer behind `datalen`.
-/

namespace ElmWrap.Hash

open Lib (absorb leftOver bigEndian padding blockHash)
open Lib.SecureHash (wordAt ofBytes)

/-- `SHA1_CTX` and `SHA256_CTX`. -/
structure HashCtx (State : Type) where
  data : List UInt8
  datalen : Nat
  bitlen : UInt64
  state : State
  length_data : data.length = 64

variable {State : Type} (transform : State → List UInt8 → State)

/-- What `sha1_init` and `sha256_init` set; `data` is left as it is. -/
def HashCtx.init (ctx : HashCtx State) (state : State) : HashCtx State :=
  { ctx with datalen := 0, bitlen := 0, state := state }

/-- The body of the loop of `sha1_update` and `sha256_update`. -/
def HashCtx.push (ctx : HashCtx State) (byte : UInt8) : HashCtx State :=
  let data := ctx.data.set ctx.datalen byte
  have length_data : data.length = 64 := by
    rw [List.length_set]
    exact ctx.length_data
  if ctx.datalen + 1 = 64 then
    { data, datalen := 0, bitlen := ctx.bitlen + 512, state := transform ctx.state data,
      length_data }
  else { ctx with data, datalen := ctx.datalen + 1, length_data }

/-- `while (i < stop) data[i++] = 0x00`. -/
def zeroFill (data : List UInt8) (i stop : Nat) : List UInt8 :=
  (List.range' i (stop - i)).foldl (fun data i => data.set i 0) data

/-- The assignments of the bytes of `bitlen`. -/
def setBitlen (data : List UInt8) (bitlen : UInt64) : List UInt8 :=
  ((((((((data.set 63 bitlen.toUInt8).set 62 (bitlen >>> 8).toUInt8).set 61
    (bitlen >>> 16).toUInt8).set 60 (bitlen >>> 24).toUInt8).set 59 (bitlen >>> 32).toUInt8).set 58
    (bitlen >>> 40).toUInt8).set 57 (bitlen >>> 48).toUInt8).set 56 (bitlen >>> 56).toUInt8)

/-- The state that `sha1_final` and `sha256_final` return the bytes of. -/
def HashCtx.final (ctx : HashCtx State) : State :=
  let data := ctx.data.set ctx.datalen 0x80
  let (data, state) :=
    if ctx.datalen < 56 then (zeroFill data (ctx.datalen + 1) 56, ctx.state)
    else
      let data := zeroFill data (ctx.datalen + 1) 64
      (List.replicate 56 0 ++ data.drop 56, transform ctx.state data)
  let bitlen := ctx.bitlen + UInt64.ofNat (ctx.datalen * 8)
  transform state (setBitlen data bitlen)

/-- A byte of a block as a word. -/
def byteAt (data : List UInt8) (j : Nat) : UInt32 := (data.getD j 0).toUInt32

/-- The bytes that `sha1_final` and `sha256_final` put into `hash`: byte `i` of word `j` at
`i + 4 * j`. -/
def hashBytes (state : List UInt32) : List UInt8 :=
  (List.range (4 * state.length)).map fun n =>
    (state.getD (n / 4) 0 >>> UInt32.ofNat (24 - n % 4 * 8) &&& 0xff).toUInt8

/-- The digits of a byte in the texts of digests. -/
def hexDigits (byte : UInt8) : List Char :=
  [Nat.digitChar (byte.toNat / 16), Nat.digitChar (byte.toNat % 16)]

/-- The text that `kit_hash_hex` and `compute_file_sha1_hex` write of a digest. -/
def hexText (hash : List UInt8) : String := String.ofList (hash.flatMap hexDigits)

/-! ## What a context holds -/

/-- The context after the bytes of a text. -/
structure HashCtx.Holds (start : State) (ctx : HashCtx State) (text : List UInt8) : Prop where
  datalen : ctx.datalen = text.length % 64
  data : ctx.data.take ctx.datalen = leftOver 64 text
  bitlen : ctx.bitlen = UInt64.ofNat (text.length / 64 * 512)
  state : ctx.state = absorb 64 transform start text

theorem HashCtx.Holds.init (ctx : HashCtx State) (start : State) :
    (ctx.init start).Holds transform start [] where
  datalen := rfl
  data := rfl
  bitlen := rfl
  state := (Lib.absorb_nil 64 transform start).symm

theorem HashCtx.Holds.push {start : State} {ctx : HashCtx State} {text : List UInt8}
    (holds : ctx.Holds transform start text) (byte : UInt8) :
    (HashCtx.push transform ctx byte).Holds transform start (text ++ [byte]) := by
  have short := Nat.mod_lt text.length (show 0 < 64 by decide)
  have written : (ctx.data.set ctx.datalen byte).take (ctx.datalen + 1) =
      leftOver 64 text ++ [byte] := by
    have inside : ctx.datalen < ctx.data.length := by
      rw [ctx.length_data, holds.datalen]
      exact short
    rw [List.take_set, List.take_succ_eq_append_getElem inside, List.set_append_right,
      List.length_take_of_le inside.le, Nat.sub_self, List.set_cons_zero, holds.data]
    exact (List.length_take_le _ _)
  unfold HashCtx.push
  dsimp only
  split
  · rename_i full
    rw [holds.datalen] at full
    have filled := Lib.absorb_filled 64 transform (by decide) start full byte
    have more : (text ++ [byte]).length = text.length + 1 := List.length_append
    refine ⟨?_, ?_, ?_, ?_⟩
    · dsimp only
      omega
    · dsimp only
      rw [filled.2, List.take_zero]
    · dsimp only
      rw [holds.bitlen, more]
      have next : (text.length + 1) / 64 * 512 = text.length / 64 * 512 + 512 := by omega
      rw [next, UInt64.ofNat_add]
      rfl
    · dsimp only
      rw [filled.1, holds.state, ← written, holds.datalen, full, List.take_of_length_le]
      rw [List.length_set, ctx.length_data]
  · rename_i room
    rw [holds.datalen] at room
    have held := Lib.absorb_held 64 transform (by decide) start room byte
    have more : (text ++ [byte]).length = text.length + 1 := List.length_append
    refine ⟨?_, ?_, ?_, ?_⟩
    · dsimp only
      rw [holds.datalen, more]
      omega
    · dsimp only
      rw [written, held.2]
    · dsimp only
      rw [holds.bitlen, more]
      congr 2
      omega
    · dsimp only
      rw [held.1, holds.state]

theorem HashCtx.Holds.pushes {start : State} {ctx : HashCtx State} {text : List UInt8}
    (holds : ctx.Holds transform start text) (bytes : List UInt8) :
    (bytes.foldl (HashCtx.push transform) ctx).Holds transform start (text ++ bytes) := by
  induction bytes generalizing ctx text with
  | nil =>
    rw [List.append_nil]
    exact holds
  | cons byte bytes ih =>
    rw [List.append_cons]
    exact ih (holds.push transform byte)

/-! ## The last blocks -/

theorem zeroFill_eq {front back : List UInt8} {i stop : Nat} (at_ : front.length = i)
    (inside : i ≤ stop) (fits : stop ≤ (front ++ back).length) :
    zeroFill (front ++ back) i stop =
      front ++ List.replicate (stop - i) 0 ++ back.drop (stop - i) := by
  unfold zeroFill
  generalize more : stop - i = n
  induction n generalizing front back i with
  | zero => simp
  | succ n ih =>
    cases back with
    | nil =>
      rw [List.append_nil] at fits
      omega
    | cons byte back =>
      rw [List.range'_succ, List.foldl_cons, List.set_append_right _ _ at_.le, at_,
        Nat.sub_self, List.set_cons_zero, List.append_cons]
      have step := @ih (front ++ [0]) back (i + 1) (by simp [at_]) (by omega)
        (by simpa using fits) (by omega)
      rw [step, List.drop_succ_cons, List.replicate_succ]
      simp

/-- A byte of `bitlen`. -/
theorem shifted_byte (n : Nat) {k : Nat} (below : k < 8) (shift : UInt64)
    (places : shift = UInt64.ofNat (8 * k)) :
    (UInt64.ofNat n >>> shift).toUInt8 = UInt8.ofNat (n / 256 ^ k) := by
  refine UInt8.toNat_inj.mp ?_
  have small : 8 * k % 2 ^ 64 % 64 = 8 * k := by omega
  rw [places, UInt64.toNat_toUInt8, UInt64.toNat_shiftRight, UInt64.toNat_ofNat',
    UInt64.toNat_ofNat', small, Nat.shiftRight_eq_div_pow, UInt8.toNat_ofNat']
  have split : 2 ^ 64 = 2 ^ (8 * k) * (2 ^ 8 * 2 ^ (56 - 8 * k)) := by
    rw [← Nat.pow_add, ← Nat.pow_add]
    congr 1
    omega
  have base : 256 ^ k = 2 ^ (8 * k) := by rw [Nat.pow_mul]
  rw [split, Nat.mod_mul_right_div_self, base]
  exact Nat.mod_mul_right_mod _ (2 ^ 8) _

/-- The bytes of the length stand in the last eight places. -/
theorem setBitlen_eq {front back : List UInt8} (first : front.length = 56)
    (last : back.length = 8) (n : Nat) :
    setBitlen (front ++ back) (UInt64.ofNat n) = front ++ bigEndian 8 n := by
  have lowest : (UInt64.ofNat n).toUInt8 = UInt8.ofNat (n / 256 ^ 0) := by
    rw [← shifted_byte n (k := 0) (by decide) 0 rfl, UInt64.shiftRight_zero]
  have places : List.range 8 = [0, 1, 2, 3, 4, 5, 6, 7] := rfl
  have behind : ∀ (cells : List UInt8) (i : Nat) (byte : UInt8),
      (front ++ cells).set (56 + i) byte = front ++ cells.set i byte := by
    intro cells i byte
    rw [List.set_append_right _ _ (by omega), first, Nat.add_sub_cancel_left]
  unfold setBitlen bigEndian
  rw [lowest, shifted_byte n (k := 1) (by decide) 8 rfl,
    shifted_byte n (k := 2) (by decide) 16 rfl, shifted_byte n (k := 3) (by decide) 24 rfl,
    shifted_byte n (k := 4) (by decide) 32 rfl, shifted_byte n (k := 5) (by decide) 40 rfl,
    shifted_byte n (k := 6) (by decide) 48 rfl, shifted_byte n (k := 7) (by decide) 56 rfl, places]
  rcases back with
    _ | ⟨_, _ | ⟨_, _ | ⟨_, _ | ⟨_, _ | ⟨_, _ | ⟨_, _ | ⟨_, _ | ⟨_, _ | ⟨_, rest⟩⟩⟩⟩⟩⟩⟩⟩⟩
  case cons.cons.cons.cons.cons.cons.cons.cons.nil =>
    rw [behind _ 7, behind _ 6, behind _ 5, behind _ 4, behind _ 3, behind _ 2, behind _ 1,
      behind _ 0]
    rfl
  all_goals
    exfalso
    simp at last

/-- The state after the last blocks is the hash of the text. -/
theorem HashCtx.Holds.final {start : State} {ctx : HashCtx State} {text : List UInt8}
    (holds : ctx.Holds transform start text) :
    HashCtx.final transform ctx = blockHash 64 8 transform start text := by
  have below : ctx.datalen < 64 := by
    rw [holds.datalen]
    exact Nat.mod_lt _ (by decide)
  have rest : (leftOver 64 text).length = ctx.datalen := by
    rw [Lib.length_leftOver, holds.datalen]
  have bits : ctx.bitlen + UInt64.ofNat (ctx.datalen * 8) = UInt64.ofNat (8 * text.length) := by
    rw [holds.bitlen, holds.datalen, ← UInt64.ofNat_add]
    congr 1
    omega
  have marked : ctx.data.set ctx.datalen 0x80 =
      (leftOver 64 text ++ [0x80]) ++ ctx.data.drop (ctx.datalen + 1) := by
    conv_lhs => rw [← List.take_append_drop ctx.datalen ctx.data, holds.data]
    rw [List.set_append_right _ _ rest.le, rest, Nat.sub_self, List.append_assoc]
    congr 1
    rw [List.drop_eq_getElem_cons (by rw [ctx.length_data]; exact below), List.set_cons_zero]
    rfl
  have front : (leftOver 64 text ++ [0x80]).length = ctx.datalen + 1 := by
    rw [List.length_append, rest, List.length_singleton]
  have all : (leftOver 64 text ++ [0x80] ++ ctx.data.drop (ctx.datalen + 1)).length = 64 := by
    rw [← marked, List.length_set, ctx.length_data]
  unfold HashCtx.final blockHash
  dsimp only
  rw [bits, marked, Lib.absorb_leftOver 64 transform (by decide), ← holds.state]
  unfold padding
  have shape : ∀ zeros, leftOver 64 text ++ ((128 : UInt8) :: List.replicate zeros 0 ++
      bigEndian 8 (8 * text.length)) = leftOver 64 text ++ [0x80] ++ List.replicate zeros 0 ++
        bigEndian 8 (8 * text.length) := by
    intro zeros
    simp
  rw [shape]
  by_cases one : ctx.datalen < 56
  · -- the length fits into the block
    have zeros : (64 - (text.length + 1 + 8) % 64) % 64 = 56 - (ctx.datalen + 1) := by
      rw [holds.datalen] at one ⊢
      omega
    have filled : (leftOver 64 text ++ [0x80] ++
        List.replicate (56 - (ctx.datalen + 1)) (0 : UInt8)).length = 56 := by
      rw [List.length_append, front, List.length_replicate]
      omega
    rw [if_pos one, zeros]
    dsimp only
    rw [zeroFill_eq front (by omega) (by rw [all]; decide), setBitlen_eq filled,
      Lib.absorb_block 64 transform (by decide)]
    · rw [List.length_append, filled, Lib.length_bigEndian]
    · rw [List.length_drop, List.length_drop, ctx.length_data]
      omega
  · -- the zeros go on in a block of their own
    have zeros : (64 - (text.length + 1 + 8) % 64) % 64 = (64 - (ctx.datalen + 1)) + 56 := by
      rw [holds.datalen] at one below ⊢
      omega
    have filled : (leftOver 64 text ++ [0x80] ++
        List.replicate (64 - (ctx.datalen + 1)) (0 : UInt8)).length = 64 := by
      rw [List.length_append, front, List.length_replicate]
      omega
    rw [if_neg one, zeros, List.replicate_add, ← List.append_assoc, List.append_assoc _ _
      (bigEndian _ _), Lib.absorb_append 64 transform (by decide) (n := 1) filled,
      Lib.absorb_block 64 transform (by decide) filled]
    have nothing : (ctx.data.drop (ctx.datalen + 1)).drop (64 - (ctx.datalen + 1)) = [] := by
      rw [List.drop_drop, List.drop_eq_nil_of_le]
      rw [ctx.length_data]
      omega
    dsimp only
    rw [zeroFill_eq front (by omega) all.ge, nothing, List.append_nil,
      setBitlen_eq (List.length_replicate ..), Lib.absorb_block 64 transform (by decide)]
    · rw [List.length_append, List.length_replicate, Lib.length_bigEndian]
    · rw [List.length_drop, filled]

/-! ## Words -/

theorem wordAt_eq {data : List UInt8} {i : Nat} (inside : 4 * i + 4 ≤ data.length) :
    wordAt data i = UInt32.ofNat ((((byteAt data (4 * i)).toNat * 256 +
      (byteAt data (4 * i + 1)).toNat) * 256 + (byteAt data (4 * i + 2)).toNat) * 256 +
        (byteAt data (4 * i + 3)).toNat) := by
  have cells : (data.drop (4 * i)).take 4 = [data.getD (4 * i) 0, data.getD (4 * i + 1) 0,
      data.getD (4 * i + 2) 0, data.getD (4 * i + 3) 0] := by
    rw [List.getD_eq_getElem _ _ (by omega), List.getD_eq_getElem _ _ (by omega),
      List.getD_eq_getElem _ _ (by omega), List.getD_eq_getElem _ _ (by omega),
      List.drop_eq_getElem_cons (by omega), List.drop_eq_getElem_cons (by omega),
      List.drop_eq_getElem_cons (by omega), List.drop_eq_getElem_cons (by omega)]
    rfl
  unfold wordAt ofBytes byteAt
  rw [cells]
  simp only [List.foldl_cons, List.foldl_nil, UInt8.toNat_toUInt32, Nat.zero_mul, Nat.zero_add]

theorem byteAt_lt (data : List UInt8) (j : Nat) : (byteAt data j).toNat < 256 := by
  unfold byteAt
  rw [UInt8.toNat_toUInt32]
  exact UInt8.toNat_lt _

/-- A byte in front of a word's lower ones. -/
theorem shifted_toNat {byte : UInt32} (small : byte.toNat < 256) {n : Nat} (places : n ≤ 24)
    (shift : UInt32) (same : shift = UInt32.ofNat n) :
    (byte <<< shift).toNat = byte.toNat * 2 ^ n := by
  have inside : n % 2 ^ 32 % 32 = n := by omega
  have fits : byte.toNat * 2 ^ n < 2 ^ 32 := by
    calc byte.toNat * 2 ^ n < 2 ^ 8 * 2 ^ n := Nat.mul_lt_mul_of_pos_right small (Nat.two_pow_pos n)
      _ = 2 ^ (8 + n) := (Nat.pow_add ..).symm
      _ ≤ 2 ^ 32 := Nat.pow_le_pow_right (by decide) (by omega)
  rw [same, UInt32.toNat_shiftLeft, UInt32.toNat_ofNat', inside, Nat.shiftLeft_eq,
    Nat.mod_eq_of_lt fits]

theorem or_below {n m low : Nat} (small : low < 2 ^ n) : m * 2 ^ n ||| low = m * 2 ^ n + low := by
  rw [← Nat.shiftLeft_eq, Nat.shiftLeft_add_eq_or_of_lt small]

/-- A word of the block by disjunctions. -/
theorem wordAt_or {data : List UInt8} {i : Nat} (inside : 4 * i + 4 ≤ data.length) :
    byteAt data (4 * i) <<< 24 ||| byteAt data (4 * i + 1) <<< 16 |||
      byteAt data (4 * i + 2) <<< 8 ||| byteAt data (4 * i + 3) = wordAt data i := by
  have a := byteAt_lt data (4 * i)
  have b := byteAt_lt data (4 * i + 1)
  have c := byteAt_lt data (4 * i + 2)
  have d := byteAt_lt data (4 * i + 3)
  rw [wordAt_eq inside]
  refine UInt32.toNat_inj.mp ?_
  rw [UInt32.toNat_ofNat', UInt32.toNat_or, UInt32.toNat_or, UInt32.toNat_or,
    shifted_toNat a (n := 24) (by decide) 24 rfl, shifted_toNat b (n := 16) (by decide) 16 rfl,
    shifted_toNat c (n := 8) (by decide) 8 rfl, Nat.or_assoc, Nat.or_assoc,
    or_below (n := 8) (by omega), or_below (n := 16) (by omega), or_below (n := 24) (by omega)]
  omega

/-- A word of the block by sums. -/
theorem wordAt_add {data : List UInt8} {i : Nat} (inside : 4 * i + 4 ≤ data.length) :
    byteAt data (4 * i) <<< 24 + byteAt data (4 * i + 1) <<< 16 +
      byteAt data (4 * i + 2) <<< 8 + byteAt data (4 * i + 3) = wordAt data i := by
  have a := byteAt_lt data (4 * i)
  have b := byteAt_lt data (4 * i + 1)
  have c := byteAt_lt data (4 * i + 2)
  have d := byteAt_lt data (4 * i + 3)
  rw [wordAt_eq inside]
  refine UInt32.toNat_inj.mp ?_
  rw [UInt32.toNat_ofNat', UInt32.toNat_add, UInt32.toNat_add, UInt32.toNat_add,
    shifted_toNat a (n := 24) (by decide) 24 rfl, shifted_toNat b (n := 16) (by decide) 16 rfl,
    shifted_toNat c (n := 8) (by decide) 8 rfl]
  omega

/-! ## The digest -/

theorem hashByte_eq (word : UInt32) {i : Nat} (below : i < 4) :
    (word >>> UInt32.ofNat (24 - i * 8) &&& 0xff).toUInt8 =
      UInt8.ofNat (word.toNat / 256 ^ (3 - i)) := by
  refine UInt8.toNat_inj.mp ?_
  have small : (24 - i * 8) % 2 ^ 32 % 32 = 8 * (3 - i) := by omega
  have base : 256 ^ (3 - i) = 2 ^ (8 * (3 - i)) := by rw [Nat.pow_mul]
  have low : (0xff : UInt32).toNat = 2 ^ 8 - 1 := rfl
  rw [UInt32.toNat_toUInt8, UInt32.toNat_and, low, Nat.and_two_pow_sub_one_eq_mod,
    UInt32.toNat_shiftRight, UInt32.toNat_ofNat', small, Nat.shiftRight_eq_div_pow, Nat.mod_mod,
    UInt8.toNat_ofNat', base]

theorem hashBytes_eq (state : List UInt32) :
    hashBytes state = state.flatMap fun word => bigEndian 4 word.toNat := by
  induction state with
  | nil => rfl
  | cons word state ih =>
    have first : 4 * (word :: state).length = 4 + 4 * state.length := by
      rw [List.length_cons]
      omega
    unfold hashBytes at ih ⊢
    rw [first, List.range_add, List.map_append, List.map_map, List.flatMap_cons, ← ih]
    congr 1
    · unfold bigEndian
      refine List.map_congr_left fun i inside => ?_
      have below := List.mem_range.mp inside
      rw [Nat.div_eq_of_lt below, Nat.mod_eq_of_lt below, List.getD_cons_zero,
        hashByte_eq word below]
    · refine List.map_congr_left fun n _ => ?_
      have later : (4 + n) / 4 = n / 4 + 1 := by omega
      rw [Function.comp_apply, later, List.getD_cons_succ, Nat.add_mod_left]

end ElmWrap.Hash
