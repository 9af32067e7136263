import ElmWrap.Lib.Block

/-!
# Arrays that grow

`dyn_array.h`: the macros are given an array, a count and a capacity, and nothing else
is known of the array. Where the capacity is its size, a push goes well.
-/

namespace ElmWrap

open Lib

variable {α : Type}

/-- `DYNARRAY_ENSURE_CAPACITY`: the array and the capacity. -/
def dynarrayEnsureCapacity (arr : Block α) (count capacity : Nat) : Block α × Nat :=
  if capacity ≤ count then
    let capacity := if capacity = 0 then 8 else capacity * 2
    (arr.resize capacity, capacity)
  else (arr, capacity)

/-- `DYNARRAY_PUSH`: the array, the count and the capacity; `none` where the value is written behind
the end of the array. -/
def dynarrayPush (arr : Block α) (count capacity : Nat) (value : α) :
    Option (Block α × Nat × Nat) :=
  let (arr, capacity) := dynarrayEnsureCapacity arr count capacity
  (arr.write count value).map fun arr => (arr, count + 1, capacity)

/-- An array whose capacity is known grows as it has to. -/
theorem dynarrayPush_holds {arr : Block α} {items : List α} (holds : arr.Holds items)
    (value : α) :
    ∃ pushed capacity,
      dynarrayPush arr items.length arr.size value = some (pushed, items.length + 1, capacity) ∧
      pushed.Holds (items ++ [value]) ∧ pushed.size = capacity := by
  have fits := holds.length_le
  unfold dynarrayPush dynarrayEnsureCapacity
  by_cases full : arr.size ≤ items.length
  · rw [if_pos full]
    dsimp only
    have room : items.length < if arr.size = 0 then 8 else arr.size * 2 := by
      split <;> omega
    obtain ⟨pushed, wrote, sized, held⟩ :=
      (holds.resize room.le).write (by rwa [Block.size_resize]) value
    rw [wrote]
    exact ⟨pushed, _, rfl, held, sized.trans (Block.size_resize _ _)⟩
  · rw [if_neg full]
    dsimp only
    obtain ⟨pushed, wrote, sized, held⟩ := holds.write (Nat.not_le.mp full) value
    rw [wrote]
    exact ⟨pushed, _, rfl, held, sized⟩

/-- A push into an array under a capacity that leaves room is a write. -/
theorem dynarrayPush_room {arr : Block α} {count capacity : Nat} (room : count < capacity)
    (value : α) :
    dynarrayPush arr count capacity value =
      (arr.write count value).map fun arr => (arr, count + 1, capacity) := by
  unfold dynarrayPush dynarrayEnsureCapacity
  rw [if_neg (Nat.not_le.mpr room)]

end ElmWrap
