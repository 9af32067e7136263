import Mathlib.Data.Finmap

/-!
# Moving entries from one finite map to another

An entry that is moved is taken out of the source and takes the place of what the
target has under its new key. A sequence of moves can be made as long as each key is
still in the source, and loses nothing as long as the new keys are new and distinct.
-/

namespace ElmWrap.Lib.Relocation

variable {κ ι β : Type} [DecidableEq κ] [DecidableEq ι]

/-! ## The values of a map -/

/-- The values, as often as they are there. -/
def values (m : Finmap fun _ : κ => β) : Multiset β := m.entries.map Sigma.snd

theorem values_insert {m : Finmap fun _ : κ => β} {k : κ} (new : k ∉ m) (b : β) :
    values (m.insert k b) = b ::ₘ values m := by
  unfold values
  rw [Finmap.entries_insert_of_notMem new, Multiset.map_cons]

theorem values_erase {m : Finmap fun _ : κ => β} {k : κ} {b : β} (found : m.lookup k = some b) :
    b ::ₘ values (m.erase k) = values m := by
  have back : (m.erase k).insert k b = m := by
    apply Finmap.ext_lookup
    intro other
    by_cases same : other = k
    · rw [same, Finmap.lookup_insert, found]
    · rw [Finmap.lookup_insert_of_ne _ same, Finmap.lookup_erase_ne same]
  rw [← values_insert Finmap.notMem_erase_self b, back]

/-! ## Moves -/

/-- Two maps between which entries are moved. -/
structure Trees (κ ι β : Type) where
  source : Finmap fun _ : κ => β
  target : Finmap fun _ : ι => β

namespace Trees

/-- What both maps hold. -/
def contents (trees : Trees κ ι β) : Multiset β := values trees.source + values trees.target

/-- Move an entry with a value. -/
def move (trees : Trees κ ι β) (src : κ) (dest : ι) (b : β) : Trees κ ι β :=
  ⟨trees.source.erase src, trees.target.insert dest b⟩

/-- Move one entry after the other. -/
def moveAll : List (κ × ι) → Trees κ ι β → Option (Trees κ ι β)
  | [], trees => some trees
  | m :: rest, trees =>
    (trees.source.lookup m.1).bind fun b => moveAll rest (trees.move m.1 m.2 b)

/-- Every entry is moved, once, and nothing is lost. -/
structure Moved (moves : List (κ × ι)) (before after : Trees κ ι β) : Prop where
  gone : ∀ m ∈ moves, m.1 ∉ after.source
  there : ∀ m ∈ moves, after.target.lookup m.2 = before.source.lookup m.1
  others : ∀ k, k ∉ moves.map Prod.fst → after.source.lookup k = before.source.lookup k
  distinct : (moves.map Prod.snd).Nodup
  kept : ∀ k, k ∉ moves.map Prod.snd → after.target.lookup k = before.target.lookup k
  contents : after.contents = before.contents

variable {trees after : Trees κ ι β} {moves : List (κ × ι)}

theorem contents_move {src : κ} {dest : ι} {b : β} (found : trees.source.lookup src = some b)
    (new : dest ∉ trees.target) : (trees.move src dest b).contents = trees.contents := by
  unfold contents move
  rw [values_insert new, Multiset.add_cons, ← Multiset.cons_add, values_erase found]

theorem moveAll_cons {m : κ × ι} {rest : List (κ × ι)} :
    moveAll (m :: rest) trees = some after ↔
      ∃ b, trees.source.lookup m.1 = some b ∧ moveAll rest (trees.move m.1 m.2 b) = some after :=
  Option.bind_eq_some_iff

theorem moveAll_source (ran : moveAll moves trees = some after) (k : κ) :
    after.source.lookup k = if k ∈ moves.map Prod.fst then none else trees.source.lookup k := by
  induction moves generalizing trees with
  | nil =>
    cases ran
    rfl
  | cons m rest ih =>
    obtain ⟨b, -, ran⟩ := moveAll_cons.mp ran
    rw [ih ran]
    simp only [List.map_cons, List.mem_cons]
    by_cases same : k = m.1
    · rw [if_pos (Or.inl same), same]
      split
      · rfl
      · exact Finmap.lookup_erase ..
    · have kept : (trees.move m.1 m.2 b).source.lookup k = trees.source.lookup k :=
        Finmap.lookup_erase_ne same
      rw [kept]
      simp only [same, false_or]

theorem moveAll_isSome :
    (moveAll moves trees).isSome = true ↔
      (∀ m ∈ moves, m.1 ∈ trees.source) ∧ (moves.map Prod.fst).Nodup := by
  induction moves generalizing trees with
  | nil => simp [moveAll]
  | cons m rest ih =>
    rw [List.forall_mem_cons, List.map_cons, List.nodup_cons]
    cases found : trees.source.lookup m.1 with
    | none =>
      have absent := Finmap.lookup_eq_none.mp found
      unfold moveAll
      rw [found]
      simp [absent]
    | some b =>
      have there : m.1 ∈ trees.source := Finmap.mem_of_lookup_eq_some found
      unfold moveAll
      rw [found, Option.bind_some, ih]
      unfold move
      simp only [Finmap.mem_erase]
      constructor
      · rintro ⟨all, nodup⟩
        refine ⟨⟨there, fun n member => (all n member).2⟩, ?_, nodup⟩
        intro again
        obtain ⟨n, member, same⟩ := List.mem_map.mp again
        exact (all n member).1 same
      · rintro ⟨⟨-, all⟩, new, nodup⟩
        refine ⟨fun n member => ⟨?_, all n member⟩, nodup⟩
        intro same
        exact new (List.mem_map.mpr ⟨n, member, same⟩)

/-- Moves to new and distinct keys lose nothing. -/
theorem moveAll_moved (ran : moveAll moves trees = some after)
    (distinct : (moves.map Prod.snd).Nodup) (new : ∀ m ∈ moves, m.2 ∉ trees.target) :
    Moved moves trees after := by
  induction moves generalizing trees with
  | nil =>
    cases ran
    exact ⟨(fun _ member => nomatch member), (fun _ member => nomatch member), fun _ _ => rfl,
      distinct, fun _ _ => rfl, rfl⟩
  | cons m rest ih =>
    have nodup := (moveAll_isSome.mp (Option.isSome_iff_exists.mpr ⟨after, ran⟩)).2
    obtain ⟨once, -⟩ := List.nodup_cons.mp nodup
    obtain ⟨b, found, later⟩ := moveAll_cons.mp ran
    obtain ⟨apart, others⟩ := List.nodup_cons.mp distinct
    obtain ⟨newHere, newLater⟩ := List.forall_mem_cons.mp new
    have moved := ih later others (by
      intro n member
      unfold move
      rw [Finmap.mem_insert, not_or]
      exact ⟨fun same => apart (same ▸ List.mem_map_of_mem member), newLater n member⟩)
    have source := moveAll_source ran
    refine ⟨?_, ?_, ?_, distinct, ?_, ?_⟩
    · intro n member
      rw [← Finmap.lookup_eq_none, source, if_pos (List.mem_map_of_mem member)]
    · intro n member
      rcases List.mem_cons.mp member with rfl | member
      · rw [moved.kept _ apart, found]
        exact Finmap.lookup_insert _
      · rw [moved.there n member]
        apply Finmap.lookup_erase_ne
        exact fun same => once (same ▸ List.mem_map_of_mem member)
    · intro k other
      rw [source, if_neg other]
    · intro k other
      obtain ⟨elsewhere, other⟩ := List.ne_and_not_mem_of_not_mem_cons other
      rw [moved.kept k other]
      exact Finmap.lookup_insert_of_ne _ elsewhere
    · rw [moved.contents, contents_move found newHere]

end Trees

end ElmWrap.Lib.Relocation
