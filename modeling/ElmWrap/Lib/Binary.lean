import Mathlib.Algebra.Group.Int.Defs
import Mathlib.Algebra.Group.Nat.Defs
import Mathlib.Data.List.Basic

/-!
# Binary layouts

Writers give bytes, readers take them off the front of a list. A writer and a
reader that belong together are related by what the reader does to the bytes of
the writer with anything behind them.
-/

namespace ElmWrap.Lib.Binary

abbrev Bytes := List UInt8

/-- A reader: what it has read, and the bytes left; `none` where it fails. -/
abbrev Reader (α : Type) := Bytes → Option (α × Bytes)

/-- One byte. -/
def readU8 : Reader UInt8
  | [] => none
  | b :: rest => some (b, rest)

/-- The eight bytes of a number, the most significant first. -/
def u64be (n : Nat) : Bytes :=
  [UInt8.ofNat (n >>> 56), UInt8.ofNat (n >>> 48), UInt8.ofNat (n >>> 40),
    UInt8.ofNat (n >>> 32), UInt8.ofNat (n >>> 24), UInt8.ofNat (n >>> 16),
    UInt8.ofNat (n >>> 8), UInt8.ofNat n]

def readU64be : Reader Nat
  | b0 :: b1 :: b2 :: b3 :: b4 :: b5 :: b6 :: b7 :: rest =>
    some (b0.toNat * 2 ^ 56 + b1.toNat * 2 ^ 48 + b2.toNat * 2 ^ 40 + b3.toNat * 2 ^ 32 +
      b4.toNat * 2 ^ 24 + b5.toNat * 2 ^ 16 + b6.toNat * 2 ^ 8 + b7.toNat, rest)
  | _ => none

/-- The two bytes of a number, the more significant first. -/
def u16be (n : UInt16) : Bytes := [UInt8.ofNat (n.toNat / 256), UInt8.ofNat n.toNat]

def readU16be : Reader UInt16
  | b0 :: b1 :: rest => some (UInt16.ofNat (b0.toNat * 256 + b1.toNat), rest)
  | _ => none

/-- A given number of bytes. -/
def readBytes (n : Nat) : Reader Bytes :=
  fun bytes => if n ≤ bytes.length then some (bytes.take n, bytes.drop n) else none

/-- A given number of items. -/
def readMany {α : Type} (read : Reader α) : Nat → Reader (List α)
  | 0, bytes => some ([], bytes)
  | n + 1, bytes =>
    match read bytes with
    | none => none
    | some (a, rest) =>
      match readMany read n rest with
      | none => none
      | some (as, rest) => some (a :: as, rest)

theorem readU64be_u64be {n : Nat} (small : n < 2 ^ 64) (rest : Bytes) :
    readU64be (u64be n ++ rest) = some (n, rest) := by
  have bytes : n / 2 ^ 56 % 256 * 2 ^ 56 + n / 2 ^ 48 % 256 * 2 ^ 48 +
      n / 2 ^ 40 % 256 * 2 ^ 40 + n / 2 ^ 32 % 256 * 2 ^ 32 + n / 2 ^ 24 % 256 * 2 ^ 24 +
      n / 2 ^ 16 % 256 * 2 ^ 16 + n / 2 ^ 8 % 256 * 2 ^ 8 + n % 256 = n := by
    omega
  simp only [u64be, readU64be, List.cons_append, List.nil_append, UInt8.toNat_ofNat',
    Nat.shiftRight_eq_div_pow, Option.some.injEq, Prod.mk.injEq, and_true]
  exact bytes

theorem readU16be_u16be (n : UInt16) (rest : Bytes) :
    readU16be (u16be n ++ rest) = some (n, rest) := by
  have small := n.toNat_lt
  simp only [u16be, readU16be, List.cons_append, List.nil_append, UInt8.toNat_ofNat',
    Option.some.injEq, Prod.mk.injEq, and_true]
  apply UInt16.toNat_inj.mp
  rw [UInt16.toNat_ofNat']
  omega

theorem readBytes_append (bytes rest : Bytes) :
    readBytes bytes.length (bytes ++ rest) = some (bytes, rest) := by
  unfold readBytes
  rw [if_pos (by simp), List.take_left, List.drop_left]

/-- Items that are read back one by one are read back together. -/
theorem readMany_flatMap {α : Type} {read : Reader α} {write : α → Bytes} {items : List α}
    (back : ∀ a ∈ items, ∀ rest, read (write a ++ rest) = some (a, rest)) (rest : Bytes) :
    readMany read items.length (items.flatMap write ++ rest) = some (items, rest) := by
  induction items with
  | nil => rfl
  | cons a items ih =>
    have tail := ih fun b on => back b (List.mem_cons_of_mem a on)
    rw [List.flatMap_cons, List.append_assoc, List.length_cons, readMany,
      back a List.mem_cons_self]
    dsimp only
    rw [tail]

/-- What holds of every item that can be read holds of all items read together. -/
theorem readMany_forall {α : Type} {read : Reader α} {P : α → Prop}
    (each : ∀ bytes a rest, read bytes = some (a, rest) → P a) {n : Nat} {bytes rest : Bytes}
    {items : List α} (result : readMany read n bytes = some (items, rest)) :
    items.length = n ∧ ∀ a ∈ items, P a := by
  induction n generalizing bytes items with
  | zero =>
    cases result
    refine ⟨rfl, ?_⟩
    intro a member
    cases member
  | succ n ih =>
    unfold readMany at result
    split at result
    · cases result
    · rename_i a more first
      split at result
      · cases result
      · rename_i others last later
        cases result
        obtain ⟨count, all⟩ := ih later
        refine ⟨by rw [List.length_cons, count], ?_⟩
        intro b member
        rcases List.mem_cons.mp member with rfl | rest
        · exact each bytes b more first
        · exact all b rest

/-- A reader that checks and converts each item it reads checks and converts all of them. -/
theorem readMany_checked {α β : Type} {read : Reader α} {checked : Reader β} {p : α → Bool}
    {f : α → β} (each : ∀ bytes, checked bytes =
      (read bytes).bind fun r => if p r.1 then some (f r.1, r.2) else none) (n : Nat)
    (bytes : Bytes) :
    readMany checked n bytes =
      (readMany read n bytes).bind fun r => if r.1.all p then some (r.1.map f, r.2) else none := by
  induction n generalizing bytes with
  | zero => rfl
  | succ n ih =>
    unfold readMany
    rw [each]
    cases read bytes with
    | none => rfl
    | some first =>
      obtain ⟨a, rest⟩ := first
      cases accepted : p a with
      | false =>
        simp only [Option.bind_some, accepted, Bool.false_eq_true, if_false]
        cases readMany read n rest <;> simp [accepted]
      | true =>
        simp only [Option.bind_some, accepted, if_true]
        rw [ih rest]
        cases readMany read n rest with
        | none => rfl
        | some later =>
          obtain ⟨as, last⟩ := later
          simp only [Option.bind_some, List.all_cons, accepted, Bool.true_and, List.map_cons]
          cases as.all p <;> rfl

end ElmWrap.Lib.Binary
