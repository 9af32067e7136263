import ElmWrap.Alloc.Larena

/-!
# Areas that keep their contents

`alloc.c`. Every area has its size in the eight bytes before it. The caller sees objects: an
object is at the address it was given and has the bytes that were put into it.
-/

namespace ElmWrap.Alloc

open Lib.ByteMemory

/-- `SIZE_MAX` -/
def sizeMax : Nat := 2 ^ 64 - 1

/-- `INITIAL_ARENA_SIZE` -/
def initialArenaSize : Nat := 1024 * 1024

/-- The memory, and `global_arena` where it is initialized. -/
structure AllocState where
  memory : Memory
  arena : Option Larena

/-- `alloc_ensure_init` -/
def allocEnsureInit (s : AllocState) : Larena := s.arena.getD (larenaInit initialArenaSize)

/-- `arena_alloc_with_header` -/
def arenaAllocWithHeader (malloc : Malloc) (s : AllocState) (size : Nat) (zero : Bool) :
    AllocState × Option Nat :=
  let arena := allocEnsureInit s
  let size := if size = 0 then 1 else size
  if sizeMax - size < 8 then ({ s with arena := some arena }, none)
  else
    match larenaAlloc malloc arena (8 + size) with
    | (arena, none) => ({ s with arena := some arena }, none)
    | (arena, some base) =>
      let memory := s.memory.setWord base size
      let memory := if zero then memory.write (base + 8) (List.replicate size 0) else memory
      ({ memory := memory, arena := some arena }, some (base + 8))

/-- `arena_malloc` -/
def arenaMalloc (malloc : Malloc) (s : AllocState) (size : Nat) : AllocState × Option Nat :=
  arenaAllocWithHeader malloc s size false

/-- `arena_calloc` -/
def arenaCalloc (malloc : Malloc) (s : AllocState) (count size : Nat) :
    AllocState × Option Nat :=
  if count = 0 ∨ size = 0 then arenaAllocWithHeader malloc s 0 true
  else if sizeMax / count < size then (s, none)
  else arenaAllocWithHeader malloc s (count * size) true

/-- `arena_realloc` -/
def arenaRealloc (malloc : Malloc) (s : AllocState) (ptr : Option Nat) (size : Nat) :
    AllocState × Option Nat :=
  match ptr with
  | none => arenaMalloc malloc s size
  | some ptr =>
    if size = 0 then (s, none)
    else
      let oldSize := s.memory.word (ptr - 8)
      if size ≤ oldSize then ({ s with memory := s.memory.setWord (ptr - 8) size }, some ptr)
      else
        match arenaMalloc malloc s size with
        | (s, none) => (s, none)
        | (s, some newPtr) =>
          ({ s with memory := s.memory.write newPtr (s.memory.read ptr oldSize) }, some newPtr)

/-- `arena_strdup`, by the text that the pointer leads to. -/
def arenaStrdup (malloc : Malloc) (s : AllocState) (text : Option (List UInt8)) :
    AllocState × Option Nat :=
  match text with
  | none => (s, none)
  | some text =>
    match arenaMalloc malloc s (text.length + 1) with
    | (s, none) => (s, none)
    | (s, some copy) => ({ s with memory := s.memory.write copy (text ++ [0]) }, some copy)

/-- A call, or a write of the caller's. -/
inductive AllocCall
  | init
  | malloc (size : Nat)
  | calloc (count size : Nat)
  | realloc (ptr : Option Nat) (size : Nat)
  | strdup (text : Option (List UInt8))
  | free (ptr : Option Nat)
  /-- A byte is written at an offset of an area. -/
  | store (ptr offset : Nat) (byte : UInt8)

/-- What a call does, and the pointer it returns. -/
def AllocCall.run (malloc : Malloc) (s : AllocState) : AllocCall → AllocState × Option Nat
  | .init => ({ s with arena := some (allocEnsureInit s) }, none)
  | .malloc size => arenaMalloc malloc s size
  | .calloc count size => arenaCalloc malloc s count size
  | .realloc ptr size => arenaRealloc malloc s ptr size
  | .strdup text => arenaStrdup malloc s text
  | .free _ => (s, none)
  | .store ptr offset byte => ({ s with memory := s.memory.write (ptr + offset) [byte] }, none)

/-! ## Objects -/

/-- An object: its bytes, where they have been given. -/
abbrev Object := List (Option UInt8)

/-- The objects, by address. -/
abbrev Objects := Nat → Option Object

/-- An object is put at an address. -/
def Objects.put (objects : Objects) (ptr : Nat) (object : Object) : Objects :=
  fun p => if p = ptr then some object else objects p

theorem Objects.put_same (objects : Objects) (ptr : Nat) (object : Object) :
    objects.put ptr object ptr = some object := if_pos rfl

theorem Objects.put_other {objects : Objects} {ptr p : Nat} {object : Object} (other : p ≠ ptr) :
    objects.put ptr object p = objects p := if_neg other

/-- An object of a size whose bytes have not been given. -/
def Object.fresh (size : Nat) : Object := List.replicate size none

/-- An object with these bytes. -/
def Object.of (bytes : List UInt8) : Object := bytes.map some

/-- The object that a call asks for, where it asks for a new one. -/
def AllocCall.asks (objects : Objects) : AllocCall → Option Object
  | .malloc size => some (.fresh (max size 1))
  | .calloc count size => some (.of (List.replicate (max (count * size) 1) 0))
  | .realloc none size => some (.fresh (max size 1))
  | .realloc (some ptr) size => do
      let old ← objects ptr
      if old.length < size then some (old ++ .fresh (size - old.length)) else none
  | .strdup text => text.map fun text => .of (text ++ [0])
  | .init | .free _ | .store .. => none

/-- What the caller keeps to. -/
def AllocCall.Proper (objects : Objects) : AllocCall → Prop
  | .malloc size => size + 32 ≤ 2 ^ 63
  | .calloc count size => count * size + 32 ≤ 2 ^ 63 ∨ 2 ^ 64 ≤ count * size
  | .realloc none size => size + 32 ≤ 2 ^ 63
  | .realloc (some ptr) size => (objects ptr).isSome ∧ size + 32 ≤ 2 ^ 63
  | .strdup text => ∀ t ∈ text, t.length + 33 ≤ 2 ^ 63
  | .init | .free _ => True
  | .store ptr offset _ => ∃ object, objects ptr = some object ∧ offset < object.length

/-- The objects after a call that returned this pointer. -/
def AllocCall.after (objects : Objects) (call : AllocCall) (result : Option Nat) : Objects :=
  match call.asks objects, result with
  | some object, some ptr => objects.put ptr object
  | some _, none => objects
  | none, _ =>
    match call with
    | .realloc (some ptr) size =>
      if size = 0 then objects
      else
        match objects ptr with
        | some old => objects.put ptr (old.take size)
        | none => objects
    | .store ptr offset byte =>
      match objects ptr with
      | some old => objects.put ptr (old.set offset (some byte))
      | none => objects
    | _ => objects

/-- What a call may return: a new address where it asks for an object, unless the system has
none or the size overflows. -/
def AllocCall.Answers (malloc : Malloc) (objects : Objects) (call : AllocCall)
    (result : Option Nat) : Prop :=
  match call.asks objects with
  | some _ =>
    (∃ ptr, result = some ptr ∧ objects ptr = none) ∨
      result = none ∧ ((∃ size, malloc size = none) ∨
        ∃ count size, call = .calloc count size ∧ 2 ^ 64 ≤ count * size)
  | none =>
    match call with
    | .realloc (some ptr) size => result = if size = 0 then none else some ptr
    | _ => result = none

/-! ## What the memory holds -/

/-- The objects are in the memory, each in an area of its own. -/
structure Represents (s : AllocState) (objects : Objects) : Prop where
  valid : (allocEnsureInit s).Valid
  aligned : ∀ {p object}, objects p = some object → p % 8 = 0
  placed : ∀ {p object}, objects p = some object → ∃ b ∈ (allocEnsureInit s).blocks,
    b.data + 8 ≤ p ∧ p + object.length ≤ b.data + b.used
  header : ∀ {p object}, objects p = some object → s.memory.word (p - 8) = object.length
  contents : ∀ {p object}, objects p = some object →
    ∀ i byte, object[i]? = some (some byte) → s.memory (p + i) = byte
  apart : ∀ {p q a b}, objects p = some a → objects q = some b → p ≠ q →
    Apart (p - 8) (8 + a.length) (q - 8) (8 + b.length)

theorem Represents.start (memory : Memory) :
    Represents { memory := memory, arena := none } fun _ => none := by
  refine ⟨larenaInit_valid (by decide), ?_, ?_, ?_, ?_, ?_⟩
  · exact fun object => nomatch object
  · exact fun object => nomatch object
  · exact fun object => nomatch object
  · exact fun object => nomatch object
  · exact fun object => nomatch object

/-- An object is behind its size. -/
theorem Represents.header_le {s : AllocState} {objects : Objects}
    (represents : Represents s objects) {p : Nat} {object : Object}
    (there : objects p = some object) :
    8 ≤ p ∧ object.length < 2 ^ 64 := by
  obtain ⟨b, member, before, after⟩ := represents.placed there
  have inside := (represents.valid.blocks b member).inside
  have bounded := (represents.valid.blocks b member).bounded
  omega

/-- An object is put into an area that is apart from the others. -/
theorem Represents.put {s s' : AllocState} {objects : Objects} (represents : Represents s objects)
    {p : Nat} {object : Object} (size : Nat) (valid : (allocEnsureInit s').Valid)
    (kept : ∀ b ∈ (allocEnsureInit s).blocks,
      ∃ b' ∈ (allocEnsureInit s').blocks, b'.data = b.data ∧ b.used ≤ b'.used)
    (apart : ∀ q other, objects q = some other → q ≠ p →
      Apart (q - 8) (8 + other.length) (p - 8) (8 + size))
    (same : ∀ a, a < p - 8 ∨ p + size ≤ a → s'.memory a = s.memory a)
    (fits : object.length ≤ size) (aligned : p % 8 = 0)
    (placed : ∃ b ∈ (allocEnsureInit s').blocks,
      b.data + 8 ≤ p ∧ p + object.length ≤ b.data + b.used)
    (header : s'.memory.word (p - 8) = object.length)
    (contents : ∀ i byte, object[i]? = some (some byte) → s'.memory (p + i) = byte) :
    Represents s' (objects.put p object) := by
  have before : 8 ≤ p := by
    obtain ⟨_, _, first, _⟩ := placed
    omega
  -- what is not the new object is one of the old ones
  have other {q : Nat} {found : Object} (there : objects.put p object q = some found)
      (different : q ≠ p) : objects q = some found := by
    rwa [Objects.put_other different] at there
  have own {found : Object} (there : objects.put p object p = some found) : found = object := by
    rw [Objects.put_same] at there
    exact (Option.some.inj there).symm
  refine ⟨valid, ?_, ?_, ?_, ?_, ?_⟩
  · intro q found there
    by_cases here : q = p
    · rw [here]
      exact aligned
    · exact represents.aligned (other there here)
  · intro q found there
    by_cases here : q = p
    · subst here
      rw [own there]
      exact placed
    · obtain ⟨b, member, first, last⟩ := represents.placed (other there here)
      obtain ⟨b', member', data, used⟩ := kept b member
      exact ⟨b', member', by omega, by omega⟩
  · intro q found there
    by_cases here : q = p
    · subst here
      rw [own there]
      exact header
    · have area := apart q found (other there here) here
      have old := (represents.header_le (other there here)).1
      rw [← represents.header (other there here), Memory.word, Memory.word]
      refine congrArg ofBytes (Memory.read_congr fun i inside => same _ ?_)
      unfold Apart at area
      omega
  · intro q found there i byte given
    by_cases here : q = p
    · subst here
      rw [own there] at given
      exact contents i byte given
    · have area := apart q found (other there here) here
      have old := (represents.header_le (other there here)).1
      have inside := (List.getElem?_eq_some_iff.mp given).1
      rw [same _ (by unfold Apart at area; omega)]
      exact represents.contents (other there here) i byte given
  · intro q r a b first second different
    by_cases here : q = p
    · subst here
      rw [own first]
      have area := apart r b (other second (Ne.symm different)) (Ne.symm different)
      exact area.symm.inside ⟨Nat.le_refl _, by omega⟩ ⟨Nat.le_refl _, Nat.le_refl _⟩
    · by_cases there : r = p
      · subst there
        rw [own second]
        have area := apart q a (other first here) here
        exact area.inside ⟨Nat.le_refl _, Nat.le_refl _⟩ ⟨Nat.le_refl _, by omega⟩
      · exact represents.apart (other first here) (other second there) different

/-! ## New areas -/

/-- A new area with its size before it. -/
structure Fresh (s s' : AllocState) (ptr size : Nat) : Prop where
  valid : (allocEnsureInit s').Valid
  positive : 0 < size
  aligned : ptr % 8 = 0
  inUse : ∃ b ∈ (allocEnsureInit s').blocks, b.data + 8 ≤ ptr ∧ ptr + size ≤ b.data + b.used
  new : ∀ b ∈ (allocEnsureInit s).blocks, Apart b.data b.used (ptr - 8) (8 + size)
  kept : ∀ b ∈ (allocEnsureInit s).blocks,
    ∃ b' ∈ (allocEnsureInit s').blocks, b'.data = b.data ∧ b.used ≤ b'.used
  header : s'.memory.word (ptr - 8) = size
  same : ∀ a, a < ptr - 8 ∨ ptr + size ≤ a → s'.memory a = s.memory a

/-- `arena_alloc_with_header` gives a new area, or nothing where the system has none. -/
theorem arenaAllocWithHeader_spec {malloc : Malloc} {s : AllocState} {size : Nat} (zero : Bool)
    (valid : (allocEnsureInit s).Valid) (sound : malloc.Sound (allocEnsureInit s).blocks)
    (small : size + 32 ≤ 2 ^ 63) :
    (∃ s' ptr, arenaAllocWithHeader malloc s size zero = (s', some ptr) ∧
      Fresh s s' ptr (max size 1) ∧
      (zero = true → ∀ i < max size 1, s'.memory (ptr + i) = 0)) ∨
    (∃ s', arenaAllocWithHeader malloc s size zero = (s', none) ∧ s'.memory = s.memory ∧
      allocEnsureInit s' = allocEnsureInit s ∧ ∃ n, malloc n = none) := by
  have actual : (if size = 0 then 1 else size) = max size 1 := by
    split <;> omega
  unfold arenaAllocWithHeader
  rw [actual]
  generalize requested : max size 1 = n
  have positive : 0 < n := by omega
  have bound : n + 32 ≤ 2 ^ 63 := by omega
  dsimp only
  rw [if_neg (by unfold sizeMax; omega)]
  rcases larenaAlloc_spec valid sound (by omega : 0 < 8 + n) (by omega) with
    ⟨arena', base, given, takes⟩ | ⟨refused, answer⟩
  · rw [given]
    dsimp only
    obtain ⟨b, member, first, last⟩ := takes.inUse
    have header : (s.memory.setWord base n).word base = n :=
      Memory.word_setWord (by omega)
    refine .inl ⟨_, _, rfl,
      ⟨takes.valid, positive, ?_, ⟨b, member, ?_, ?_⟩, ?_, takes.kept, ?_, ?_⟩, ?_⟩
    · have aligned := takes.aligned
      omega
    · omega
    · omega
    · rw [Nat.add_sub_cancel]
      exact takes.new
    · rw [Nat.add_sub_cancel]
      cases zero with
      | false => exact header
      | true =>
        rw [if_pos rfl, Memory.word_write_apart (.inl (Nat.le_refl _))]
        exact header
    · intro a outside
      have apart : (s.memory.setWord base n) a = s.memory a :=
        Memory.write_outside (by rw [length_wordBytes]; omega)
      dsimp only
      cases zero with
      | false => exact apart
      | true =>
        rw [if_pos rfl, Memory.write_outside (by rw [List.length_replicate]; omega)]
        exact apart
    · intro cleared i inside
      rw [cleared, if_pos rfl]
      exact Memory.write_inside (by simp [inside])
  · rw [refused]
    exact .inr ⟨_, rfl, rfl, rfl, answer⟩

/-- An object that is put into a new area. -/
theorem Fresh.put {s s' : AllocState} {objects : Objects} {ptr size : Nat}
    (fresh : Fresh s s' ptr size) (represents : Represents s objects) {memory : Memory}
    {object : Object} (length : object.length = size)
    (same : ∀ a, a < ptr ∨ ptr + size ≤ a → memory a = s'.memory a)
    (contents : ∀ i byte, object[i]? = some (some byte) → memory (ptr + i) = byte) :
    Represents { s' with memory := memory } (objects.put ptr object) ∧ objects ptr = none := by
  obtain ⟨block, member, first, last⟩ := fresh.inUse
  have positive := fresh.positive
  constructor
  · refine represents.put size fresh.valid fresh.kept ?_ ?_ (Nat.le_of_eq length)
      fresh.aligned ⟨block, member, first, by omega⟩ ?_ contents
    · intro q other there _
      obtain ⟨b, old, before, after⟩ := represents.placed there
      exact (fresh.new b old).inside ⟨by omega, by omega⟩ ⟨Nat.le_refl _, Nat.le_refl _⟩
    · intro a outside
      exact (same a (by omega)).trans (fresh.same a outside)
    · rw [length, ← fresh.header, Memory.word, Memory.word]
      exact congrArg ofBytes (Memory.read_congr fun i inside => same _ (by omega))
  · -- an object at the address would be in an old block
    by_contra there
    obtain ⟨found, there⟩ := Option.ne_none_iff_exists'.mp there
    obtain ⟨b, old, before, after⟩ := represents.placed there
    have apart := fresh.new b old
    unfold Apart at apart
    omega

/-! ## Calls -/

section

variable {malloc : Malloc} {s : AllocState} {objects : Objects} {call : AllocCall}

theorem Represents.of_same (represents : Represents s objects) {s' : AllocState}
    (memory : s'.memory = s.memory) (arena : allocEnsureInit s' = allocEnsureInit s) :
    Represents s' objects where
  valid := arena ▸ represents.valid
  aligned := represents.aligned
  placed := arena ▸ represents.placed
  header := memory ▸ represents.header
  contents := memory ▸ represents.contents
  apart := represents.apart

/-- A call that asks for an object gets it. -/
theorem AllocCall.given {object : Object} (asks : call.asks objects = some object)
    (represents : Represents s objects) {s' : AllocState} {ptr : Nat}
    (fresh : Fresh s s' ptr object.length) {memory : Memory}
    (same : ∀ a, a < ptr ∨ ptr + object.length ≤ a → memory a = s'.memory a)
    (contents : ∀ i byte, object[i]? = some (some byte) → memory (ptr + i) = byte) :
    Represents { s' with memory := memory } (call.after objects (some ptr)) ∧
      call.Answers malloc objects (some ptr) := by
  obtain ⟨holds, new⟩ := fresh.put represents rfl same contents
  unfold AllocCall.after AllocCall.Answers
  rw [asks]
  exact ⟨holds, .inl ⟨ptr, rfl, new⟩⟩

/-- A call that asks for an object gets none. -/
theorem AllocCall.refused {object : Object} (asks : call.asks objects = some object)
    (represents : Represents s objects) {s' : AllocState} (memory : s'.memory = s.memory)
    (arena : allocEnsureInit s' = allocEnsureInit s)
    (why : (∃ size, malloc size = none) ∨
      ∃ count size, call = .calloc count size ∧ 2 ^ 64 ≤ count * size) :
    Represents s' (call.after objects none) ∧ call.Answers malloc objects none := by
  unfold AllocCall.after AllocCall.Answers
  rw [asks]
  exact ⟨represents.of_same memory arena, .inr ⟨rfl, why⟩⟩

theorem Object.fresh_none {size i : Nat} {byte : UInt8}
    (given : (Object.fresh size)[i]? = some (some byte)) : False := by
  have same := List.eq_of_mem_replicate (List.mem_of_getElem? given)
  cases same

theorem Object.of_some {bytes : List UInt8} {i : Nat} {byte : UInt8}
    (given : (Object.of bytes)[i]? = some (some byte)) : bytes[i]? = some byte := by
  rw [Object.of, List.getElem?_map] at given
  cases found : bytes[i]? with
  | none =>
    rw [found] at given
    cases given
  | some b =>
    rw [found, Option.map_some] at given
    exact Option.some.inj given

/-- A new area whose bytes are not given. -/
theorem arenaMalloc_run (represents : Represents s objects)
    (sound : malloc.Sound (allocEnsureInit s).blocks) {size : Nat} (small : size + 32 ≤ 2 ^ 63)
    (asks : call.asks objects = some (.fresh (max size 1))) :
    Represents (arenaMalloc malloc s size).1 (call.after objects (arenaMalloc malloc s size).2) ∧
      call.Answers malloc objects (arenaMalloc malloc s size).2 := by
  unfold arenaMalloc
  rcases arenaAllocWithHeader_spec false represents.valid sound small with
    ⟨s', ptr, result, fresh, -⟩ | ⟨s', result, memory, arena, none⟩
  · rw [result]
    refine AllocCall.given asks represents ?_ (fun _ _ => rfl) fun i byte given => ?_
    · rw [Object.fresh, List.length_replicate]
      exact fresh
    · exact (Object.fresh_none given).elim
  · rw [result]
    exact AllocCall.refused asks represents memory arena (.inl none)

theorem arenaCalloc_run (represents : Represents s objects)
    (sound : malloc.Sound (allocEnsureInit s).blocks) {count size : Nat}
    (proper : (AllocCall.calloc count size).Proper objects) :
    Represents (arenaCalloc malloc s count size).1
        ((AllocCall.calloc count size).after objects (arenaCalloc malloc s count size).2) ∧
      (AllocCall.calloc count size).Answers malloc objects
        (arenaCalloc malloc s count size).2 := by
  -- what is asked for is cleared in either case
  have cleared (small : count * size + 32 ≤ 2 ^ 63) :
      Represents (arenaAllocWithHeader malloc s (count * size) true).1
          ((AllocCall.calloc count size).after objects
            (arenaAllocWithHeader malloc s (count * size) true).2) ∧
        (AllocCall.calloc count size).Answers malloc objects
          (arenaAllocWithHeader malloc s (count * size) true).2 := by
    rcases arenaAllocWithHeader_spec true represents.valid sound small with
      ⟨s', ptr, result, fresh, zeros⟩ | ⟨s', result, memory, arena, none⟩
    · rw [result]
      refine AllocCall.given rfl represents ?_ (fun _ _ => rfl) fun i byte given => ?_
      · rw [Object.of, List.length_map, List.length_replicate]
        exact fresh
      · obtain ⟨inside, same⟩ := List.getElem?_eq_some_iff.mp (Object.of_some given)
        rw [List.length_replicate] at inside
        rw [List.getElem_replicate] at same
        rw [zeros rfl i inside, same]
    · rw [result]
      exact AllocCall.refused rfl represents memory arena (.inl none)
  unfold arenaCalloc
  split
  · rename_i empty
    have zero : count * size = 0 := Nat.mul_eq_zero.mpr empty
    rw [← zero]
    exact cleared (by omega)
  · rename_i filled
    obtain ⟨counted, sized⟩ := not_or.mp filled
    have overflows : sizeMax / count < size ↔ 2 ^ 64 ≤ count * size := by
      rw [Nat.div_lt_iff_lt_mul (Nat.pos_of_ne_zero counted), Nat.mul_comm size count]
      unfold sizeMax
      omega
    split
    · rename_i beyond
      exact AllocCall.refused rfl represents rfl rfl
        (.inr ⟨count, size, rfl, overflows.mp beyond⟩)
    · rename_i fits
      exact cleared (proper.resolve_right fun beyond => fits (overflows.mpr beyond))

/-- An area gets smaller. -/
theorem Represents.shrink (represents : Represents s objects) {ptr size : Nat} {old : Object}
    (there : objects ptr = some old) (smaller : size ≤ old.length) :
    Represents { s with memory := s.memory.setWord (ptr - 8) size }
      (objects.put ptr (old.take size)) := by
  obtain ⟨before, bounded⟩ := represents.header_le there
  have length : (old.take size).length = size := by
    rw [List.length_take]
    omega
  refine represents.put old.length represents.valid
    (fun b member => ⟨b, member, rfl, Nat.le_refl _⟩)
    (fun q other found different => represents.apart found there different) ?_ (by omega)
    (represents.aligned there) ?_ ?_ ?_
  · intro a outside
    exact Memory.write_outside (by rw [length_wordBytes]; omega)
  · obtain ⟨b, member, first, last⟩ := represents.placed there
    exact ⟨b, member, first, by omega⟩
  · rw [length]
    exact Memory.word_setWord (by omega)
  · intro i byte given
    have inside := (List.getElem?_eq_some_iff.mp given).1
    rw [length] at inside
    rw [List.getElem?_take_of_lt inside] at given
    rw [← represents.contents there i byte given]
    exact Memory.write_outside (by rw [length_wordBytes]; omega)

/-- A byte of an area is written. -/
theorem Represents.store (represents : Represents s objects) {ptr offset : Nat} {old : Object}
    (there : objects ptr = some old) (inside : offset < old.length) (byte : UInt8) :
    Represents { s with memory := s.memory.write (ptr + offset) [byte] }
      (objects.put ptr (old.set offset (some byte))) := by
  obtain ⟨before, bounded⟩ := represents.header_le there
  have length : (old.set offset (some byte)).length = old.length := List.length_set
  refine represents.put old.length represents.valid
    (fun b member => ⟨b, member, rfl, Nat.le_refl _⟩)
    (fun q other found different => represents.apart found there different) ?_ (by omega)
    (represents.aligned there) ?_ ?_ ?_
  · intro a outside
    exact Memory.write_outside (by rw [List.length_singleton]; omega)
  · rw [length]
    exact represents.placed there
  · rw [length, ← represents.header there]
    exact Memory.word_write_apart (.inl (by omega))
  · intro i b given
    by_cases here : i = offset
    · subst here
      rw [List.getElem?_set_self inside] at given
      cases given
      exact Memory.write_first ..
    · rw [List.getElem?_set_ne (Ne.symm here)] at given
      rw [← represents.contents there i b given]
      exact Memory.write_outside (by rw [List.length_singleton]; omega)

/-- An area is copied to a larger one. -/
theorem arenaRealloc_grow (represents : Represents s objects)
    (sound : malloc.Sound (allocEnsureInit s).blocks) {ptr size : Nat} {old : Object}
    (there : objects ptr = some old) (larger : old.length < size) (small : size + 32 ≤ 2 ^ 63) :
    Represents (arenaRealloc malloc s (some ptr) size).1
        ((AllocCall.realloc (some ptr) size).after objects
          (arenaRealloc malloc s (some ptr) size).2) ∧
      (AllocCall.realloc (some ptr) size).Answers malloc objects
        (arenaRealloc malloc s (some ptr) size).2 := by
  have asks : (AllocCall.realloc (some ptr) size).asks objects =
      some (old ++ .fresh (size - old.length)) := by
    simp only [AllocCall.asks, there, Option.bind_eq_bind, Option.bind_some, larger, if_true]
  have length : (old ++ Object.fresh (size - old.length)).length = size := by
    rw [List.length_append, Object.fresh, List.length_replicate]
    omega
  unfold arenaRealloc arenaMalloc
  dsimp only
  rw [if_neg (by omega), represents.header there, if_neg (by omega)]
  rcases arenaAllocWithHeader_spec false represents.valid sound small with
    ⟨s', newPtr, result, fresh, -⟩ | ⟨s', result, memory, arena, none⟩
  · rw [Nat.max_eq_left (by omega)] at fresh
    rw [result]
    refine AllocCall.given asks represents (length.symm ▸ fresh) ?_ ?_
    · intro a outside
      rw [length] at outside
      exact Memory.write_outside (by rw [Memory.length_read]; omega)
    · intro i byte given
      by_cases inside : i < old.length
      · rw [List.getElem?_append_left inside] at given
        obtain ⟨b, member, first, last⟩ := represents.placed there
        have apart := fresh.new b member
        unfold Apart at apart
        rw [Memory.write_inside (Memory.getElem?_read _ _ inside), fresh.same _ (by omega)]
        exact represents.contents there i byte given
      · rw [List.getElem?_append_right (by omega)] at given
        exact (Object.fresh_none given).elim
  · rw [result]
    exact AllocCall.refused asks represents memory arena (.inl none)

theorem arenaStrdup_run (represents : Represents s objects)
    (sound : malloc.Sound (allocEnsureInit s).blocks) {text : List UInt8}
    (small : text.length + 33 ≤ 2 ^ 63) :
    Represents (arenaStrdup malloc s (some text)).1
        ((AllocCall.strdup (some text)).after objects (arenaStrdup malloc s (some text)).2) ∧
      (AllocCall.strdup (some text)).Answers malloc objects
        (arenaStrdup malloc s (some text)).2 := by
  have length : (Object.of (text ++ [0])).length = text.length + 1 := by
    rw [Object.of, List.length_map, List.length_append, List.length_singleton]
  unfold arenaStrdup arenaMalloc
  dsimp only
  rcases arenaAllocWithHeader_spec false represents.valid sound
      (by omega : text.length + 1 + 32 ≤ 2 ^ 63) with
    ⟨s', ptr, result, fresh, -⟩ | ⟨s', result, memory, arena, none⟩
  · rw [Nat.max_eq_left (by omega)] at fresh
    rw [result]
    refine AllocCall.given rfl represents (length.symm ▸ fresh) ?_ ?_
    · intro a outside
      rw [length] at outside
      exact Memory.write_outside (by simpa using outside)
    · exact fun i byte given => Memory.write_inside (Object.of_some given)
  · rw [result]
    exact AllocCall.refused rfl represents memory arena (.inl none)

/-- A proper call does to the memory what it does to the objects. -/
theorem AllocCall.run_represents (represents : Represents s objects)
    (sound : malloc.Sound (allocEnsureInit s).blocks) (proper : call.Proper objects) :
    Represents (call.run malloc s).1 (call.after objects (call.run malloc s).2) ∧
      call.Answers malloc objects (call.run malloc s).2 := by
  cases call with
  | init => exact ⟨represents.of_same rfl rfl, rfl⟩
  | malloc size => exact arenaMalloc_run represents sound proper rfl
  | calloc count size => exact arenaCalloc_run represents sound proper
  | realloc ptr size =>
    cases ptr with
    | none => exact arenaMalloc_run represents sound proper rfl
    | some ptr =>
      obtain ⟨known, small⟩ := proper
      obtain ⟨old, there⟩ := Option.isSome_iff_exists.mp known
      by_cases larger : old.length < size
      · exact arenaRealloc_grow represents sound there larger small
      · have asks : (AllocCall.realloc (some ptr) size).asks objects = none := by
          simp only [AllocCall.asks, there, Option.bind_eq_bind, Option.bind_some, larger,
            if_false]
        unfold AllocCall.after AllocCall.Answers
        rw [asks]
        unfold AllocCall.run arenaRealloc
        dsimp only
        by_cases zero : size = 0
        · rw [if_pos zero, if_pos zero, if_pos zero]
          exact ⟨represents, rfl⟩
        · rw [if_neg zero, if_neg zero, if_neg zero, there, represents.header there,
            if_pos (by omega)]
          exact ⟨represents.shrink there (by omega), rfl⟩
  | strdup text =>
    cases text with
    | none => exact ⟨represents, rfl⟩
    | some text => exact arenaStrdup_run represents sound (proper text rfl)
  | free ptr => exact ⟨represents, rfl⟩
  | store ptr offset byte =>
    obtain ⟨old, there, inside⟩ := proper
    unfold AllocCall.after AllocCall.Answers
    dsimp only [AllocCall.asks]
    rw [there]
    exact ⟨represents.store there inside byte, rfl⟩

end

/-! ## Runs -/

/-- The states of the runs in which the caller keeps to what it has to and the system's areas
are its own, with the objects the caller has. -/
inductive Reached : AllocState → Objects → Prop
  | start (memory : Memory) : Reached { memory := memory, arena := none } fun _ => none
  | call {s : AllocState} {objects : Objects} (reached : Reached s objects) (malloc : Malloc)
      (call : AllocCall) (sound : malloc.Sound (allocEnsureInit s).blocks)
      (proper : call.Proper objects) :
      Reached (call.run malloc s).1 (call.after objects (call.run malloc s).2)

theorem Reached.represents {s : AllocState} {objects : Objects} (reached : Reached s objects) :
    Represents s objects := by
  induction reached with
  | start memory => exact .start memory
  | call _ malloc call sound proper ih => exact (AllocCall.run_represents ih sound proper).1

theorem Malloc.Sound.none (blocks : List LarenaBlock) : Malloc.Sound (fun _ => none) blocks where
  aligned := fun answer => nomatch answer
  apart := fun answer => nomatch answer

/-- Near `SIZE_MAX` the sizes overflow: an address is given and nothing is in use. -/
example : larenaAlloc (fun _ => some 4096) (larenaInit initialArenaSize) (8 + (sizeMax - 8)) =
    ({ blocks := [⟨4120, 1048576, 0⟩], blockSize := 1048576 }, some 4120) := by
  decide

end ElmWrap.Alloc
