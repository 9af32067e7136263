import Mathlib.Data.List.Basic
import Mathlib.Data.Nat.ModEq
import Mathlib.Tactic.Common

/-!
# Texts in blocks

A text is put into a state block by block, after it has been padded to whole blocks
with its length at the end. What is behind the last whole block is left over until more
of the text arrives.
-/

namespace ElmWrap.Lib

section Blocks

variable {Byte State : Type} (size : Nat) (compress : State → List Byte → State)

/-- The state after the whole blocks of a text, one after the other. -/
def absorb (state : State) (text : List Byte) : State :=
  (List.range (text.length / size)).foldl
    (fun state n => compress state ((text.drop (n * size)).take size)) state

/-- What is behind the last whole block. -/
def leftOver (text : List Byte) : List Byte := text.drop (text.length / size * size)

theorem length_leftOver (text : List Byte) :
    (leftOver size text).length = text.length % size := by
  unfold leftOver
  rw [List.length_drop, Nat.mul_comm]
  have := Nat.div_add_mod text.length size
  omega

theorem take_leftOver (text : List Byte) :
    text.take (text.length / size * size) ++ leftOver size text = text :=
  List.take_append_drop _ text

theorem absorb_nil (state : State) : absorb size compress state [] = state := by
  unfold absorb
  rw [List.length_nil, Nat.zero_div]
  rfl

/-- A text of whole blocks leaves nothing over for the one behind it. -/
theorem absorb_append (positive : 0 < size) {front : List Byte} {n : Nat}
    (whole : front.length = n * size) (state : State) (back : List Byte) :
    absorb size compress state (front ++ back) =
      absorb size compress (absorb size compress state front) back := by
  have blocks : (front ++ back).length / size = n + back.length / size := by
    rw [List.length_append, whole, Nat.mul_comm, Nat.mul_add_div positive]
  have own : front.length / size = n := by rw [whole, Nat.mul_div_cancel _ positive]
  unfold absorb
  rw [blocks, own, List.range_add, List.foldl_append, List.foldl_map]
  have first : ∀ state, (List.range n).foldl (fun state i =>
        compress state (((front ++ back).drop (i * size)).take size)) state =
      (List.range n).foldl (fun state i =>
        compress state ((front.drop (i * size)).take size)) state := by
    intro state
    refine List.foldl_ext _ _ _ fun state i before => ?_
    have inside : (i + 1) * size ≤ front.length := by
      rw [whole]
      exact Nat.mul_le_mul_right _ (List.mem_range.mp before)
    rw [Nat.succ_mul] at inside
    rw [List.drop_append_of_le_length (by omega), List.take_append_of_le_length]
    rw [List.length_drop]
    omega
  rw [first]
  refine List.foldl_ext _ _ _ fun state i _ => ?_
  rw [Nat.add_mul, ← whole, List.drop_append, List.drop_eq_nil_of_le (Nat.le_add_right _ _),
    List.nil_append, Nat.add_sub_cancel_left]

/-- Less than a block changes nothing. -/
theorem absorb_short {text : List Byte} (short : text.length < size) (state : State) :
    absorb size compress state text = state := by
  unfold absorb
  rw [Nat.div_eq_of_lt short]
  rfl

theorem absorb_block (positive : 0 < size) {text : List Byte} (one : text.length = size)
    (state : State) : absorb size compress state text = compress state text := by
  unfold absorb
  rw [one, Nat.div_self positive, List.range_one, List.foldl_cons, List.foldl_nil, Nat.zero_mul,
    List.drop_zero, ← one, List.take_length]

/-- The state is the one after the whole blocks, and the rest goes with what follows. -/
theorem absorb_leftOver (positive : 0 < size) (state : State) (text back : List Byte) :
    absorb size compress state (text ++ back) =
      absorb size compress (absorb size compress state text) (leftOver size text ++ back) := by
  have whole : (text.take (text.length / size * size)).length = text.length / size * size :=
    List.length_take_of_le (Nat.div_mul_le_self _ _)
  have front : absorb size compress state text =
      absorb size compress state (text.take (text.length / size * size)) := by
    conv_lhs => rw [← take_leftOver size text]
    rw [absorb_append size compress positive whole, absorb_short]
    rw [length_leftOver]
    exact Nat.mod_lt _ positive
  rw [front, ← absorb_append size compress positive whole, ← List.append_assoc, take_leftOver]

/-- One more byte that does not fill the block. -/
theorem absorb_held (positive : 0 < size) (state : State) {text : List Byte}
    (room : text.length % size + 1 ≠ size) (byte : Byte) :
    absorb size compress state (text ++ [byte]) = absorb size compress state text ∧
      leftOver size (text ++ [byte]) = leftOver size text ++ [byte] := by
  have short := Nat.mod_lt text.length positive
  have same : (text ++ [byte]).length / size = text.length / size := by
    rw [List.length_append, List.length_singleton]
    refine (Nat.div_eq_iff positive).mpr ⟨?_, ?_⟩
    · exact Nat.le_succ_of_le (Nat.div_mul_le_self _ _)
    · have := Nat.div_add_mod text.length size
      rw [Nat.mul_comm] at this
      omega
  constructor
  · rw [absorb_leftOver size compress positive, absorb_short]
    rw [List.length_append, length_leftOver, List.length_singleton]
    omega
  · unfold leftOver
    rw [same, List.drop_append_of_le_length (Nat.div_mul_le_self _ _)]

/-- The byte that fills the block. -/
theorem absorb_filled (positive : 0 < size) (state : State) {text : List Byte}
    (full : text.length % size + 1 = size) (byte : Byte) :
    absorb size compress state (text ++ [byte]) =
        compress (absorb size compress state text) (leftOver size text ++ [byte]) ∧
      leftOver size (text ++ [byte]) = [] := by
  have one : (leftOver size text ++ [byte]).length = size := by
    rw [List.length_append, length_leftOver, List.length_singleton, full]
  constructor
  · rw [absorb_leftOver size compress positive, absorb_block size compress positive one]
  · rw [← List.length_eq_zero_iff, length_leftOver, List.length_append, List.length_singleton,
      ← Nat.mod_add_mod, full, Nat.mod_self]

/-- Only what is made of whole blocks matters. -/
theorem absorb_congr {other : State → List Byte → State}
    (same : ∀ (state : State) (block : List Byte), block.length = size →
      compress state block = other state block) (state : State) (text : List Byte) :
    absorb size compress state text = absorb size other state text := by
  unfold absorb
  refine List.foldl_ext _ _ _ fun state n before => same state _ ?_
  have inside : (n + 1) * size ≤ text.length :=
    (Nat.mul_le_mul_right _ (List.mem_range.mp before)).trans (Nat.div_mul_le_self _ _)
  rw [Nat.succ_mul] at inside
  rw [List.length_take, List.length_drop]
  omega

end Blocks

/-! ## Numbers as bytes -/

/-- The last bytes of a number, the most significant one first. -/
def bigEndian (width n : Nat) : List UInt8 :=
  (List.range width).map fun i => UInt8.ofNat (n / 256 ^ (width - 1 - i))

theorem length_bigEndian (width n : Nat) : (bigEndian width n).length = width := by
  unfold bigEndian
  rw [List.length_map, List.length_range]

/-! ## Padding -/

/-- The bytes behind a text: a mark, zeros up to a whole block, and the length in bits in the last
bytes of the block. -/
def padding (size lengthBytes n : Nat) : List UInt8 :=
  128 :: List.replicate ((size - (n + 1 + lengthBytes) % size) % size) 0 ++
    bigEndian lengthBytes (8 * n)

/-- The hash of a text: the state after the padded text. -/
def blockHash {State : Type} (size lengthBytes : Nat) (compress : State → List UInt8 → State)
    (start : State) (text : List UInt8) : State :=
  absorb size compress start (text ++ padding size lengthBytes text.length)

end ElmWrap.Lib
