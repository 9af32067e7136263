import Mathlib.Algebra.Group.Int.Defs
import Mathlib.Algebra.Group.Nat.Defs
import Mathlib.Data.List.Basic

/-!
# Byte-addressed memory

A memory gives every address its byte. Numbers are stored with the least significant byte
first.
-/

namespace ElmWrap.Lib.ByteMemory

/-- What stands at every address. -/
abbrev Memory := Nat → UInt8

/-- Two areas, given by address and length, share no address. -/
def Apart (a m b n : Nat) : Prop := a + m ≤ b ∨ b + n ≤ a

theorem Apart.symm {a m b n : Nat} (apart : Apart a m b n) : Apart b n a m := Or.symm apart

/-- Areas inside two areas that are apart. -/
theorem Apart.inside {a m b n a' m' b' n' : Nat} (apart : Apart a m b n)
    (first : a ≤ a' ∧ a' + m' ≤ a + m) (second : b ≤ b' ∧ b' + n' ≤ b + n) :
    Apart a' m' b' n' := by
  unfold Apart at *
  omega

/-! ## Bytes -/

/-- The bytes of an area. -/
def Memory.read (memory : Memory) (address count : Nat) : List UInt8 :=
  (List.range count).map fun i => memory (address + i)

/-- Bytes are written one after another. -/
def Memory.write (memory : Memory) (address : Nat) (bytes : List UInt8) : Memory :=
  fun a => if address ≤ a then (bytes[a - address]?).getD (memory a) else memory a

@[simp] theorem Memory.length_read (memory : Memory) (address count : Nat) :
    (memory.read address count).length = count := by
  simp [Memory.read]

theorem Memory.getElem?_read (memory : Memory) (address : Nat) {count i : Nat}
    (inside : i < count) : (memory.read address count)[i]? = some (memory (address + i)) := by
  simp [Memory.read, inside]

/-- What is not written over stays. -/
theorem Memory.write_outside {memory : Memory} {address a : Nat} {bytes : List UInt8}
    (outside : a < address ∨ address + bytes.length ≤ a) :
    memory.write address bytes a = memory a := by
  unfold Memory.write
  split
  · rw [List.getElem?_eq_none (by omega), Option.getD_none]
  · rfl

/-- What is written is there. -/
theorem Memory.write_inside {memory : Memory} {address i : Nat} {bytes : List UInt8} {b : UInt8}
    (there : bytes[i]? = some b) : memory.write address bytes (address + i) = b := by
  unfold Memory.write
  rw [if_pos (Nat.le_add_right address i), Nat.add_sub_cancel_left, there, Option.getD_some]

theorem Memory.write_first (memory : Memory) (address : Nat) (b : UInt8) (rest : List UInt8) :
    memory.write address (b :: rest) address = b :=
  @Memory.write_inside memory address 0 (b :: rest) b rfl

theorem Memory.read_congr {memory memory' : Memory} {address count : Nat}
    (same : ∀ i < count, memory (address + i) = memory' (address + i)) :
    memory.read address count = memory'.read address count :=
  List.map_congr_left fun i member => same i (List.mem_range.mp member)

theorem Memory.read_write_apart {memory : Memory} {a n address : Nat} {bytes : List UInt8}
    (apart : Apart a n address bytes.length) :
    (memory.write address bytes).read a n = memory.read a n := by
  refine Memory.read_congr fun i inside => Memory.write_outside ?_
  unfold Apart at apart
  omega

theorem Memory.read_write_same (memory : Memory) (address : Nat) (bytes : List UInt8) :
    (memory.write address bytes).read address bytes.length = bytes := by
  refine List.ext_getElem? fun i => ?_
  by_cases inside : i < bytes.length
  · rw [Memory.getElem?_read _ _ inside,
      Memory.write_inside (List.getElem?_eq_getElem inside), List.getElem?_eq_getElem inside]
  · rw [List.getElem?_eq_none (by simpa using inside), List.getElem?_eq_none (by omega)]

/-! ## Numbers -/

/-- The lowest bytes of a number. -/
def wordBytes : Nat → Nat → List UInt8
  | 0, _ => []
  | count + 1, value => UInt8.ofNat value :: wordBytes count (value / 256)

/-- The number that bytes stand for. -/
def ofBytes : List UInt8 → Nat
  | [] => 0
  | b :: rest => b.toNat + 256 * ofBytes rest

@[simp] theorem length_wordBytes (count value : Nat) : (wordBytes count value).length = count := by
  induction count generalizing value with
  | zero => rfl
  | succ count ih => rw [wordBytes, List.length_cons, ih]

theorem ofBytes_wordBytes (count value : Nat) :
    ofBytes (wordBytes count value) = value % 256 ^ count := by
  induction count generalizing value with
  | zero => rw [wordBytes, ofBytes, Nat.pow_zero, Nat.mod_one]
  | succ count ih =>
    have more : 256 ^ (count + 1) = 256 * 256 ^ count := Nat.pow_succ'
    rw [wordBytes, ofBytes, ih, UInt8.toNat_ofNat', more]
    exact Nat.mod_mul.symm

/-- The number stored at an address. -/
def Memory.word (memory : Memory) (address : Nat) : Nat := ofBytes (memory.read address 8)

/-- A number is stored. -/
def Memory.setWord (memory : Memory) (address value : Nat) : Memory :=
  memory.write address (wordBytes 8 value)

theorem Memory.word_setWord {memory : Memory} {address value : Nat} (small : value < 2 ^ 64) :
    (memory.setWord address value).word address = value := by
  have stored := memory.read_write_same address (wordBytes 8 value)
  rw [length_wordBytes] at stored
  rw [Memory.word, Memory.setWord, stored, ofBytes_wordBytes,
    Nat.mod_eq_of_lt (by simpa using small)]

theorem Memory.word_write_apart {memory : Memory} {a address : Nat} {bytes : List UInt8}
    (apart : Apart a 8 address bytes.length) :
    (memory.write address bytes).word a = memory.word a := by
  rw [Memory.word, Memory.read_write_apart apart, Memory.word]

end ElmWrap.Lib.ByteMemory
