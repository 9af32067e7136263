import ElmWrap.Build.Discovery

/-!
# Levels and batches

A round that changes a module gives a level to one that had none, so the rounds end,
with each level one above the highest of the dependencies. Every module with a level
is in the batch of its level.
-/

namespace ElmWrap

open Lib

/-! ## Levels -/

theorem newLevel_some {modules : List BuildModule} {deps : List String} {level : Nat}
    (ready : newLevel modules deps = some level) :
    ∀ dep ∈ deps, ∃ below, depLevel modules dep = some below ∧ below < level := by
  induction deps generalizing level with
  | nil => exact fun dep member => absurd member List.not_mem_nil
  | cons dep rest ih =>
    unfold newLevel at ready
    split at ready
    · rename_i below above here later
      cases ready
      rw [List.forall_mem_cons]
      refine ⟨⟨below, here, by omega⟩, ?_⟩
      intro other member
      obtain ⟨lower, has, less⟩ := ih later other member
      exact ⟨lower, has, by omega⟩
    · cases ready

theorem newLevel_ready {modules : List BuildModule} {deps : List String}
    (ready : ∀ dep ∈ deps, (depLevel modules dep).isSome = true) :
    ∃ level, newLevel modules deps = some level := by
  induction deps with
  | nil => exact ⟨0, rfl⟩
  | cons dep rest ih =>
    obtain ⟨here, later⟩ := List.forall_mem_cons.mp ready
    obtain ⟨below, has⟩ := Option.isSome_iff_exists.mp here
    obtain ⟨above, rest_⟩ := ih later
    unfold newLevel
    rw [has, rest_]
    exact ⟨_, rfl⟩

theorem newLevel_mono {modules later : List BuildModule}
    (more : ∀ dep level, depLevel modules dep = some level → depLevel later dep = some level)
    {deps : List String} {level : Nat} (ready : newLevel modules deps = some level) :
    newLevel later deps = some level := by
  induction deps generalizing level with
  | nil => exact ready
  | cons dep rest ih =>
    unfold newLevel at ready ⊢
    split at ready
    · rename_i below above here rest_
      rw [more dep below here, ih rest_]
      exact ready
    · cases ready

/-- The level of a module that has none can be set without a change to the others. -/
theorem depLevel_set {passed rest : List BuildModule} {mod : BuildModule} (none_ : mod.level = none)
    (new : Option Nat) {dep : String} {level : Nat}
    (has : depLevel (passed ++ mod :: rest) dep = some level) :
    depLevel (passed ++ { mod with level := new } :: rest) dep = some level := by
  unfold depLevel at has ⊢
  rw [List.find?_append] at has ⊢
  cases found : passed.find? (·.name = dep) with
  | some other =>
    rw [found] at has
    exact has
  | none =>
    rw [found, Option.none_or] at has
    rw [Option.none_or]
    by_cases here : mod.name = dep
    · rw [List.find?_cons_of_pos (by simpa using here), Option.bind_some, none_] at has
      cases has
    · rw [List.find?_cons_of_neg (by simpa using here)] at has ⊢
      exact has

/-- Each level is one above the highest of the dependencies. -/
def Levelled (modules : List BuildModule) : Prop :=
  ∀ mod ∈ modules, ∀ level, mod.level = some level → newLevel modules mod.deps = some level

/-- The modules without a level. -/
def waiting (modules : List BuildModule) : List BuildModule :=
  modules.filter fun mod => mod.level = none

/-- The modules without their levels. -/
def unlevelled (modules : List BuildModule) : List BuildModule :=
  modules.map fun mod => { mod with level := none }

/-- What the round does to one module. -/
theorem Levelled.set {passed rest : List BuildModule} {mod : BuildModule} {level : Nat}
    (levelled : Levelled (passed ++ mod :: rest))
    (ready : newLevel (passed ++ mod :: rest) mod.deps = some level)
    (other : mod.level ≠ some level) :
    mod.level = none ∧ Levelled (passed ++ { mod with level := some level } :: rest) := by
  have none_ : mod.level = none := by
    cases has : mod.level with
    | none => rfl
    | some old =>
      have same := levelled mod (List.mem_append_right _ List.mem_cons_self) old has
      rw [ready] at same
      exact absurd (has.trans same.symm) other
  refine ⟨none_, ?_⟩
  have more := fun dep below => @depLevel_set passed rest mod none_ (some level) dep below
  intro changed member below has
  rcases List.mem_append.mp member with before | member
  · exact newLevel_mono more (levelled changed (List.mem_append_left _ before) below has)
  rcases List.mem_cons.mp member with same | after
  · rw [same] at has ⊢
    cases has
    exact newLevel_mono more ready
  · exact newLevel_mono more
      (levelled changed (List.mem_append_right _ (List.mem_cons_of_mem _ after)) below has)

/-- Where the round sets the level, one module less is waiting. -/
theorem waiting_set (passed rest : List BuildModule) {mod : BuildModule} (none_ : mod.level = none)
    (level : Nat) :
    (waiting (passed ++ mod :: rest)).length =
      (waiting (passed ++ { mod with level := some level } :: rest)).length + 1 := by
  unfold waiting
  simp [List.filter_append, none_]
  omega

/-- What a round leaves. -/
structure RoundFrom (modules : List BuildModule) (result : List BuildModule × Bool) : Prop where
  levelled : Levelled result.1
  unlevelled : unlevelled result.1 = unlevelled modules
  fewer : result.2 = true → (waiting result.1).length < (waiting modules).length
  same : result.2 = false → result.1 = modules

theorem levelRound_roundFrom (rest passed : List BuildModule)
    (levelled : Levelled (passed ++ rest)) :
    RoundFrom (passed ++ rest) (levelRound passed rest) := by
  induction rest generalizing passed with
  | nil =>
    unfold levelRound
    rw [List.append_nil] at levelled ⊢
    refine ⟨levelled, rfl, ?_, fun _ => rfl⟩
    intro changed
    cases changed
  | cons mod rest ih =>
    have shift : ∀ here : BuildModule, passed ++ here :: rest = (passed ++ [here]) ++ rest := by
      intro here
      rw [List.append_assoc]
      rfl
    have pass : RoundFrom (passed ++ mod :: rest) (levelRound (passed ++ [mod]) rest) := by
      rw [shift mod] at levelled ⊢
      exact ih _ levelled
    unfold levelRound
    split
    · exact pass
    · rename_i level ready
      split
      · exact pass
      · rename_i other
        obtain ⟨none_, levelled'⟩ := levelled.set ready other
        have fewer := waiting_set passed rest none_ level
        rw [shift] at levelled'
        have round := ih _ levelled'
        rw [← shift] at round
        refine ⟨round.levelled, ?_, ?_, ?_⟩
        · rw [round.unlevelled]
          simp [unlevelled]
        · intro _
          dsimp only
          cases changed : (levelRound (passed ++ [{ mod with level := some level }]) rest).2 with
          | true =>
            have further := round.fewer changed
            omega
          | false =>
            rw [round.same changed]
            omega
        · intro unchanged
          cases unchanged

/-- A round without a change has found every level in its place. -/
theorem levelRound_settled (rest passed : List BuildModule)
    (unchanged : (levelRound passed rest).2 = false) :
    ∀ mod ∈ rest, ∀ level, newLevel (passed ++ rest) mod.deps = some level →
      mod.level = some level := by
  induction rest generalizing passed with
  | nil => exact fun mod member => absurd member List.not_mem_nil
  | cons mod rest ih =>
    have shift : passed ++ mod :: rest = (passed ++ [mod]) ++ rest := by
      rw [List.append_assoc]
      rfl
    unfold levelRound at unchanged
    rw [List.forall_mem_cons]
    split at unchanged
    · rename_i waits
      rw [shift] at waits ⊢
      refine ⟨fun level ready => ?_, ih _ unchanged⟩
      rw [waits] at ready
      cases ready
    · rename_i level ready
      split at unchanged
      · rename_i has
        rw [shift] at ready ⊢
        refine ⟨fun other also => ?_, ih _ unchanged⟩
        rw [has, ← ready, ← also]
      · cases unchanged

/-- After the rounds each module has the level that its dependencies give it. -/
structure Settled (modules : List BuildModule) : Prop where
  levelled : Levelled modules
  settled : ∀ mod ∈ modules, ∀ level, newLevel modules mod.deps = some level →
    mod.level = some level

/-- A change takes a module from those that wait, so there are enough rounds. -/
theorem levelRounds_settled (n : Nat) {modules : List BuildModule} (levelled : Levelled modules)
    (enough : (waiting modules).length < n) :
    Settled (levelRounds n modules) ∧
      unlevelled (levelRounds n modules) = unlevelled modules := by
  induction n generalizing modules with
  | zero => omega
  | succ n ih =>
    have round := levelRound_roundFrom modules [] levelled
    rw [List.nil_append] at round
    unfold levelRounds
    dsimp only
    split
    · rename_i changed
      have fewer := round.fewer changed
      obtain ⟨settled, same⟩ := ih round.levelled (by omega)
      exact ⟨settled, same.trans round.unlevelled⟩
    · rename_i unchanged
      rw [Bool.not_eq_true] at unchanged
      have settled := levelRound_settled modules [] unchanged
      rw [round.same unchanged]
      exact ⟨⟨levelled, settled⟩, rfl⟩

theorem computeParallelLevels_settled (plan : BuildPlan) :
    Settled (computeParallelLevels plan).modules ∧
      unlevelled (computeParallelLevels plan).modules = unlevelled plan.modules := by
  have start : Levelled (unlevelled plan.modules) := by
    intro mod member level has
    obtain ⟨old, -, rfl⟩ := List.mem_map.mp member
    cases has
  have few : (waiting (unlevelled plan.modules)).length < plan.modules.length + 1 := by
    have bound := List.length_filter_le (fun mod : BuildModule => decide (mod.level = none))
      (unlevelled plan.modules)
    unfold waiting
    unfold unlevelled at bound ⊢
    rw [List.length_map] at bound
    omega
  obtain ⟨settled, same⟩ := levelRounds_settled _ start few
  refine ⟨settled, same.trans ?_⟩
  unfold unlevelled
  rw [List.map_map]
  rfl

end ElmWrap
