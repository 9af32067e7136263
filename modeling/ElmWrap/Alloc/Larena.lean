import ElmWrap.Lib.ByteMemory

/-!
# The arena allocator

`larena.h`. Sizes and addresses are numbers; where the code computes with `size_t`, sums are
taken modulo `2 ^ 64`. What the system's `malloc` answers is given with every call.
-/

namespace ElmWrap.Alloc

open Lib.ByteMemory

/-- The system's `malloc`: an address for a size, or nothing. -/
abbrev Malloc := Nat → Option Nat

/-- `sizeof(larena_block)`: the three fields before the data. -/
def sizeofLarenaBlock : Nat := 24

/-- `larena_block`, by the address of its data. -/
structure LarenaBlock where
  data : Nat
  capacity : Nat
  used : Nat
deriving DecidableEq

/-- `larena`: the blocks, the head first. -/
structure Larena where
  blocks : List LarenaBlock
  blockSize : Nat
deriving DecidableEq

/-- `larena_align_up` -/
def larenaAlignUp (value : Nat) : Nat := (value + 7) % 2 ^ 64 / 8 * 8

/-- `larena_new_block` -/
def larenaNewBlock (malloc : Malloc) (blockSize minCapacity : Nat) : Option LarenaBlock :=
  let capacity := if blockSize < minCapacity then minCapacity else blockSize
  (malloc ((sizeofLarenaBlock + capacity) % 2 ^ 64)).map fun block =>
    { data := block + sizeofLarenaBlock, capacity := capacity, used := 0 }

/-- `larena_init` -/
def larenaInit (blockSize : Nat) : Larena where
  blocks := []
  blockSize := if blockSize = 0 then 1024 * 1024 else blockSize

/-- The head has room for this many bytes. -/
def hasRoom (blocks : List LarenaBlock) (alignedSize : Nat) : Bool :=
  match blocks with
  | [] => false
  | head :: _ => (larenaAlignUp head.used + alignedSize) % 2 ^ 64 ≤ head.capacity

/-- `larena_alloc` -/
def larenaAlloc (malloc : Malloc) (arena : Larena) (size : Nat) : Larena × Option Nat :=
  let alignedSize := larenaAlignUp (if size = 0 then 1 else size)
  let blocks :=
    if hasRoom arena.blocks alignedSize then some arena.blocks
    else (larenaNewBlock malloc arena.blockSize alignedSize).map (· :: arena.blocks)
  match blocks with
  | some (block :: rest) =>
    let offset := larenaAlignUp block.used
    let used := (offset + alignedSize) % 2 ^ 64
    if used > block.capacity then ({ arena with blocks := block :: rest }, none)
    else ({ arena with blocks := { block with used := used } :: rest }, some (block.data + offset))
  | _ => (arena, none)

/-! ## The system -/

/-- The area of a block, with its fields. -/
def LarenaBlock.ApartFrom (b : LarenaBlock) (address size : Nat) : Prop :=
  Apart (b.data - sizeofLarenaBlock) (sizeofLarenaBlock + b.capacity) address size

/-- The answers of `malloc` are aligned areas of their own. -/
structure Malloc.Sound (malloc : Malloc) (blocks : List LarenaBlock) : Prop where
  aligned : ∀ {size address}, malloc size = some address → address % 8 = 0
  apart : ∀ {size address}, malloc size = some address →
    ∀ b ∈ blocks, b.ApartFrom address size

/-- What holds of the block of an arena. -/
structure LarenaBlock.Valid (b : LarenaBlock) : Prop where
  header : sizeofLarenaBlock ≤ b.data
  aligned : b.data % 8 = 0
  full : b.used % 8 = 0
  inside : b.used ≤ b.capacity
  bounded : b.capacity ≤ 2 ^ 63

/-- What holds of an arena. -/
structure Larena.Valid (arena : Larena) : Prop where
  blockSize : arena.blockSize ≤ 2 ^ 63
  blocks : ∀ b ∈ arena.blocks, b.Valid
  apart : arena.blocks.Pairwise fun b c =>
    c.ApartFrom (b.data - sizeofLarenaBlock) (sizeofLarenaBlock + b.capacity)

theorem larenaInit_valid {blockSize : Nat} (bounded : blockSize ≤ 2 ^ 63) :
    (larenaInit blockSize).Valid where
  blockSize := by
    unfold larenaInit
    dsimp only
    split
    · decide
    · exact bounded
  blocks := fun b member => by cases member
  apart := List.Pairwise.nil

/-! ## An allocation -/

theorem larenaAlignUp_of_aligned {value : Nat} (aligned : value % 8 = 0)
    (small : value + 7 < 2 ^ 64) : larenaAlignUp value = value := by
  unfold larenaAlignUp
  rw [Nat.mod_eq_of_lt small]
  omega

theorem larenaAlignUp_spec {value : Nat} (small : value + 7 < 2 ^ 64) :
    larenaAlignUp value % 8 = 0 ∧ value ≤ larenaAlignUp value ∧
      larenaAlignUp value < value + 8 := by
  unfold larenaAlignUp
  rw [Nat.mod_eq_of_lt small]
  omega

/-- The new block is apart from the ones there are. -/
theorem larenaNewBlock_spec {malloc : Malloc} {arena : Larena} {minCapacity : Nat}
    {block : LarenaBlock} (valid : arena.Valid) (sound : malloc.Sound arena.blocks)
    (small : minCapacity ≤ 2 ^ 63)
    (made : larenaNewBlock malloc arena.blockSize minCapacity = some block) :
    block.Valid ∧ block.used = 0 ∧ minCapacity ≤ block.capacity ∧
      ∀ b ∈ arena.blocks,
        b.ApartFrom (block.data - sizeofLarenaBlock) (sizeofLarenaBlock + block.capacity) := by
  obtain ⟨address, answered, rfl⟩ := Option.map_eq_some_iff.mp made
  have bounded : (if arena.blockSize < minCapacity then minCapacity else arena.blockSize) ≤
      2 ^ 63 := by
    split
    · exact small
    · exact valid.blockSize
  have enough : minCapacity ≤
      if arena.blockSize < minCapacity then minCapacity else arena.blockSize := by
    split <;> omega
  have aligned := sound.aligned answered
  have total : (sizeofLarenaBlock +
      if arena.blockSize < minCapacity then minCapacity else arena.blockSize) % 2 ^ 64 =
      sizeofLarenaBlock +
        if arena.blockSize < minCapacity then minCapacity else arena.blockSize := by
    refine Nat.mod_eq_of_lt ?_
    unfold sizeofLarenaBlock
    omega
  have apart := sound.apart answered
  rw [total] at apart
  refine ⟨⟨Nat.le_add_left .., ?_, rfl, Nat.zero_le _, bounded⟩, rfl, enough, ?_⟩
  · unfold sizeofLarenaBlock
    dsimp only
    omega
  · dsimp only
    rw [Nat.add_sub_cancel]
    exact apart

/-- What an allocation does to the blocks: the area it gives is in use from now on, and
nothing else changes. -/
structure Larena.Takes (arena arena' : Larena) (base size : Nat) : Prop where
  valid : arena'.Valid
  aligned : base % 8 = 0
  inUse : ∃ b ∈ arena'.blocks, b.data ≤ base ∧ base + size ≤ b.data + b.used
  new : ∀ b ∈ arena.blocks, Apart b.data b.used base size
  kept : ∀ b ∈ arena.blocks, ∃ b' ∈ arena'.blocks, b'.data = b.data ∧ b.used ≤ b'.used

/-- An allocation from the head, where it has room. -/
theorem Larena.Valid.takes_head {block : LarenaBlock} {rest : List LarenaBlock}
    {blockSize alignedSize size : Nat}
    (valid : Larena.Valid { blocks := block :: rest, blockSize := blockSize })
    (room : block.used + alignedSize ≤ block.capacity) (aligned : alignedSize % 8 = 0)
    (enough : size ≤ alignedSize) :
    Larena.Takes { blocks := block :: rest, blockSize := blockSize }
      { blocks := { block with used := block.used + alignedSize } :: rest,
        blockSize := blockSize } (block.data + block.used) size := by
  have head := valid.blocks block List.mem_cons_self
  obtain ⟨apart, others⟩ := List.pairwise_cons.mp valid.apart
  have full := head.full
  refine ⟨⟨valid.blockSize, ?_, List.pairwise_cons.mpr ⟨apart, others⟩⟩, ?_, ?_, ?_, ?_⟩
  · intro b member
    rcases List.mem_cons.mp member with same | later
    · rw [same]
      refine ⟨head.header, head.aligned, ?_, room, head.bounded⟩
      dsimp only
      omega
    · exact valid.blocks b (List.mem_cons_of_mem block later)
  · have data := head.aligned
    omega
  · refine ⟨_, List.mem_cons_self, Nat.le_add_right .., ?_⟩
    dsimp only
    omega
  · intro b member
    rcases List.mem_cons.mp member with same | later
    · rw [same]
      exact .inl (Nat.le_refl _)
    · have other := valid.blocks b (List.mem_cons_of_mem block later)
      have header := other.header
      have inside := other.inside
      have own := head.header
      refine (apart b later).inside ⟨?_, ?_⟩ ⟨?_, ?_⟩ <;> omega
  · intro b member
    rcases List.mem_cons.mp member with same | later
    · exact ⟨_, List.mem_cons_self, by rw [same], by rw [same]; exact Nat.le_add_right ..⟩
    · exact ⟨b, List.mem_cons_of_mem _ later, rfl, Nat.le_refl _⟩

/-- `larena_alloc` gives a new area, or nothing where the system has none. -/
theorem larenaAlloc_spec {malloc : Malloc} {arena : Larena} {size : Nat} (valid : arena.Valid)
    (sound : malloc.Sound arena.blocks) (positive : 0 < size) (small : size + 24 ≤ 2 ^ 63) :
    (∃ arena' base, larenaAlloc malloc arena size = (arena', some base) ∧
      arena.Takes arena' base size) ∨
    (larenaAlloc malloc arena size = (arena, none) ∧ ∃ n, malloc n = none) := by
  obtain ⟨aligned, enough, close⟩ := larenaAlignUp_spec (by omega : size + 7 < 2 ^ 64)
  obtain ⟨blocks, blockSize⟩ := arena
  unfold larenaAlloc
  rw [if_neg (by omega : size ≠ 0)]
  dsimp only
  generalize larenaAlignUp size = alignedSize at *
  cases fits : hasRoom blocks alignedSize with
  | true =>
    cases blocks with
    | nil => cases fits
    | cons block rest =>
      have head := valid.blocks block List.mem_cons_self
      have inside := head.inside
      have bounded := head.bounded
      have offset := larenaAlignUp_of_aligned head.full (by omega)
      have room := of_decide_eq_true fits
      rw [offset, Nat.mod_eq_of_lt (by omega)] at room
      rw [if_pos rfl]
      dsimp only
      rw [offset, Nat.mod_eq_of_lt (by omega), if_neg (Nat.not_lt.mpr room)]
      exact .inl ⟨_, _, rfl, valid.takes_head room aligned enough⟩
  | false =>
    rw [if_neg Bool.false_ne_true]
    cases made : larenaNewBlock malloc blockSize alignedSize with
    | none =>
      exact .inr ⟨rfl, _, Option.map_eq_none_iff.mp made⟩
    | some block =>
      obtain ⟨new, unused, capacity, apart⟩ :=
        larenaNewBlock_spec valid sound (by omega) made
      have grown : Larena.Valid { blocks := block :: blocks, blockSize := blockSize } :=
        ⟨valid.blockSize, List.forall_mem_cons.mpr ⟨new, valid.blocks⟩,
          List.pairwise_cons.mpr ⟨apart, valid.apart⟩⟩
      have offset := larenaAlignUp_of_aligned new.full (by omega)
      have room : block.used + alignedSize ≤ block.capacity := by omega
      have bounded := new.bounded
      have taken := grown.takes_head room aligned enough
      rw [Option.map_some]
      dsimp only
      rw [offset, Nat.mod_eq_of_lt (by omega), if_neg (Nat.not_lt.mpr room)]
      refine .inl ⟨_, _, rfl, taken.valid, taken.aligned, taken.inUse, ?_, ?_⟩
      · exact fun b member => taken.new b (List.mem_cons_of_mem block member)
      · exact fun b member => taken.kept b (List.mem_cons_of_mem block member)

end ElmWrap.Alloc
