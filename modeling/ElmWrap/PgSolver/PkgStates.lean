import ElmWrap.PgSolver.Invariants
import ElmWrap.VersionRange

/-!
# The package states follow the trail

`pkg_states` caches what the trail says about each package. It is updated on a
push and rebuilt after a backtrack; both leave it what a fresh scan of the trail
computes, and the decisions it reports are on the trail.
-/

namespace ElmWrap

open Lib

variable {γ : Type} {P : PgDependencyProvider γ}

/-- The state a scan of the trail computes for a package. -/
def pgPkgStateOf (trail : List PgAssignment) (pkg : PgPackageId) : PgPkgState :=
  trail.foldl (fun state a => if a.pkg = pkg then pgPkgStateRecord a state else state)
    PgPkgState.fresh

theorem pgPkgStateOf_append (trail : List PgAssignment) (a : PgAssignment) (pkg : PgPackageId) :
    pgPkgStateOf (trail ++ [a]) pkg =
      if a.pkg = pkg then pgPkgStateRecord a (pgPkgStateOf trail pkg)
      else pgPkgStateOf trail pkg := by
  simp [pgPkgStateOf]

theorem pgPkgStateRecord_used (a : PgAssignment) (state : PgPkgState) :
    (pgPkgStateRecord a state).used = true := by
  unfold pgPkgStateRecord
  dsimp only
  split
  · split <;> rfl
  · rfl

/-- A decision is recorded only for a decided positive assignment. -/
theorem pgPkgStateRecord_hasDecision {a : PgAssignment} {state : PgPkgState}
    (decision : (pgPkgStateRecord a state).hasDecision = true) :
    state.hasDecision = true ∨ a.decided = true := by
  unfold pgPkgStateRecord at decision
  dsimp only at decision
  split at decision
  · rename_i decided
    exact Or.inr ((Bool.and_eq_true _ _).mp decided).1
  · exact Or.inl decision

theorem pgPkgStateRecord_keeps {a : PgAssignment} {state : PgPkgState}
    (decision : state.hasDecision = true) :
    (pgPkgStateRecord a state).hasDecision = true := by
  unfold pgPkgStateRecord
  dsimp only
  split
  · split
    · rfl
    · exact decision
  · exact decision

theorem pgPkgStateRecord_decision (pkg : PgPackageId) (version : PgVersion) (level : Nat)
    (state : PgPkgState) :
    (pgPkgStateRecord (pgDecisionAssignment pkg version level) state).hasDecision = true := by
  simp [pgPkgStateRecord, pgDecisionAssignment, pgRangeIsExact_exact]

/-- A package is used once an assignment mentions it. -/
theorem pgPkgStateOf_used {trail : List PgAssignment} {a : PgAssignment} (member : a ∈ trail) :
    (pgPkgStateOf trail a.pkg).used = true := by
  induction trail using List.reverseRecOn with
  | nil => cases member
  | append_singleton trail b ih =>
    rw [pgPkgStateOf_append]
    split
    · exact pgPkgStateRecord_used b _
    · rename_i other
      apply ih
      rcases List.mem_append.mp member with old | new
      · exact old
      · rw [List.mem_singleton.mp new] at other
        exact absurd rfl other

/-- A reported decision is on the trail. -/
theorem pgPkgStateOf_hasDecision {trail : List PgAssignment} {pkg : PgPackageId}
    (decision : (pgPkgStateOf trail pkg).hasDecision = true) :
    ∃ a ∈ trail, a.pkg = pkg ∧ a.decided = true := by
  induction trail using List.reverseRecOn with
  | nil => cases decision
  | append_singleton trail b ih =>
    have old : (pgPkgStateOf trail pkg).hasDecision = true →
        ∃ a ∈ trail ++ [b], a.pkg = pkg ∧ a.decided = true := by
      intro before
      obtain ⟨a, member, on⟩ := ih before
      exact ⟨a, List.mem_append_left _ member, on⟩
    rw [pgPkgStateOf_append] at decision
    split at decision
    · rename_i same
      rcases pgPkgStateRecord_hasDecision decision with before | decided
      · exact old before
      · exact ⟨b, by simp, same, decided⟩
    · exact old decision

/-- A decision on the trail is reported. -/
theorem pgPkgStateOf_decision {trail : List PgAssignment} {pkg : PgPackageId}
    {version : PgVersion} {level : Nat}
    (member : pgDecisionAssignment pkg version level ∈ trail) :
    (pgPkgStateOf trail pkg).hasDecision = true := by
  induction trail using List.reverseRecOn with
  | nil => cases member
  | append_singleton trail b ih =>
    rw [pgPkgStateOf_append]
    rcases List.mem_append.mp member with old | new
    · split
      · exact pgPkgStateRecord_keeps (ih old)
      · exact ih old
    · rw [← List.mem_singleton.mp new, if_pos (show (pgDecisionAssignment pkg version level).pkg =
        pkg from rfl)]
      exact pgPkgStateRecord_decision pkg version level _

/-! ## The cache is in step with the trail -/

/-- Every slot holds what a scan of the trail computes, and there is a slot for
every package on the trail. -/
structure PgPkgStates (s : PgSolver γ) : Prop where
  states : ∀ pkg, s.pkgState pkg = pgPkgStateOf s.trail pkg
  inside : ∀ a ∈ s.trail, a.pkg < s.pkgStateCapacity

theorem PgPkgStates.of_eq {s s' : PgSolver γ} (holds : PgPkgStates s)
    (states : ∀ pkg, s'.pkgState pkg = s.pkgState pkg) (trail : s'.trail = s.trail)
    (capacity : s.pkgStateCapacity ≤ s'.pkgStateCapacity) : PgPkgStates s' where
  states pkg := by rw [states, trail, holds.states]
  inside a member := by
    rw [trail] at member
    exact Nat.lt_of_lt_of_le (holds.inside a member) capacity

theorem PgPkgStates.push {s : PgSolver γ} (holds : PgPkgStates s) (a : PgAssignment) :
    PgPkgStates (pgSolverPushAssignment s a) where
  states pkg := by
    rw [push_pkgState, push_trail, pgPkgStateOf_append, holds.states]
    by_cases same : a.pkg = pkg
    · rw [if_pos same, if_pos same.symm]
    · rw [if_neg same, if_neg fun eq => same eq.symm]
  inside b member := by
    rw [push_pkgStateCapacity]
    rw [push_trail] at member
    rcases List.mem_append.mp member with old | new
    · exact Nat.lt_of_lt_of_le (holds.inside b old) (Table.le_capacityFor _ _)
    · rw [List.mem_singleton.mp new]
      exact Table.lt_capacityFor _ _

theorem PgPkgStates.addDependencies {s : PgSolver γ} (holds : PgPkgStates s) (pkg : PgPackageId)
    (range : PgVersionRange) (deps : List PgDependency) :
    PgPkgStates (pgAddDependencies s pkg range deps) :=
  holds.of_eq (pgAddDependencies_pkgState s pkg range) (pgAddDependencies_trail s pkg range)
    (pgAddDependencies_pkgStateCapacity s pkg range)

/-- Rebuilding the slots one assignment after the other. -/
theorem pgPkgStatesRebuild_foldl (capacity : Nat) (fresh : List PgPkgState)
    (length : fresh.length = capacity)
    (empty : ∀ pkg, fresh.getD pkg PgPkgState.fresh = PgPkgState.fresh) :
    ∀ trail : List PgAssignment, (∀ a ∈ trail, a.pkg < capacity) →
      (trail.foldl pgPkgStatesRebuild fresh).length = capacity ∧
        ∀ pkg, (trail.foldl pgPkgStatesRebuild fresh).getD pkg PgPkgState.fresh =
          pgPkgStateOf trail pkg := by
  intro trail
  induction trail using List.reverseRecOn with
  | nil => exact fun _ => ⟨length, empty⟩
  | append_singleton trail a ih =>
    intro inside
    obtain ⟨len, states⟩ := ih fun b member => inside b (List.mem_append_left _ member)
    have room : a.pkg < (trail.foldl pgPkgStatesRebuild fresh).length := by
      rw [len]
      exact inside a (by simp)
    rw [List.foldl_append, List.foldl_cons, List.foldl_nil, pgPkgStatesRebuild,
      if_neg (Nat.not_le_of_lt room)]
    refine ⟨by rw [List.length_set, len], fun pkg => ?_⟩
    rw [pgPkgStateOf_append, ← states pkg]
    rw [List.getD_eq_getElem?_getD, List.getElem?_set]
    by_cases same : a.pkg = pkg
    · subst same
      simp [room]
    · simp [same, List.getD_eq_getElem?_getD]

theorem PgPkgStates.backtrack {s : PgSolver γ} (holds : PgPkgStates s) (level : Nat) :
    PgPkgStates (pgSolverBacktrackToLevel s level) := by
  have empty : ∀ pkg, (s.pkgStates.map fun _ => PgPkgState.fresh).getD pkg PgPkgState.fresh =
      PgPkgState.fresh := by
    intro pkg
    rw [List.getD_eq_getElem?_getD, List.getElem?_map]
    cases s.pkgStates[pkg]? <;> rfl
  have rebuilt := pgPkgStatesRebuild_foldl s.pkgStateCapacity
    (s.pkgStates.map fun _ => PgPkgState.fresh) (by simp [PgSolver.pkgStateCapacity]) empty
    (pgTrailCut level s.trail) fun a member => holds.inside a (mem_of_mem_pgTrailCut member)
  refine ⟨rebuilt.2, fun a member => ?_⟩
  have inside := holds.inside a (mem_of_mem_pgTrailCut member)
  rw [← rebuilt.1] at inside
  exact inside

theorem PgTransition.pkgStates {c c' : PgConfig γ} (step : PgTransition P c c')
    (holds : PgPkgStates c.solver) : PgPkgStates c'.solver := by
  cases step with
  | derive => exact holds.push _
  | decideError outcome =>
    cases outcome with
    | stuck => exact holds.of_eq (fun _ => rfl) rfl (Nat.le_refl _)
    | failed =>
      refine (PgPkgStates.push ?_ _).of_eq (fun _ => rfl) rfl (Nat.le_refl _)
      exact holds.of_eq (fun _ => rfl) rfl (Nat.le_refl _)
  | @noVersions s s' id outcome =>
    cases outcome with
    | @noVersions cv =>
      exact holds.of_eq (fun _ => add_pkgState _ _ _ _) (by simp)
        (add_pkgStateCapacity { s with cachedVersions := cv } _ _)
  | finished outcome =>
    cases outcome
    exact holds.of_eq (fun _ => rfl) rfl (Nat.le_refl _)
  | @decided s s' outcome =>
    have added : PgPkgStates s' := by
      cases outcome
      apply PgPkgStates.addDependencies
      refine (PgPkgStates.push ?_ _).of_eq (fun _ => rfl) rfl (Nat.le_refl _)
      exact holds.of_eq (fun _ => rfl) rfl (Nat.le_refl _)
    exact added.of_eq (fun _ => rfl) rfl (Nat.le_refl _)
  | giveUp outcome => cases outcome <;> exact holds.of_eq (fun _ => rfl) rfl (Nat.le_refl _)
  | resolved outcome =>
    cases outcome
    exact holds.of_eq (fun _ => rfl) rfl (Nat.le_refl _)
  | learned outcome =>
    cases outcome
    apply PgPkgStates.backtrack
    exact holds.of_eq (attach_pkgState _ _) (attach_trail _ _) (attach_pkgStateCapacity _ _)
  | _ => exact holds.of_eq (fun _ => rfl) rfl (Nat.le_refl _)

theorem pgRootsPushed_pkgStates {s : PgSolver γ} (holds : PgPkgStates s)
    (roots : List PgDependency) : PgPkgStates (pgRootsPushed s roots) := by
  induction roots generalizing s with
  | nil => exact holds
  | cons dep roots ih => exact ih (holds.push _)

theorem PgPkgStates.start {ctx : γ} {rootPkg : PgPackageId} {rootVersion : PgVersion}
    {roots : List PgDependency} {c : PgConfig γ}
    (started : PgStarted P ctx rootPkg rootVersion roots c) : PgPkgStates c.solver := by
  have new : PgPkgStates (pgSolverNew ctx rootPkg rootVersion) :=
    ⟨fun pkg => rfl, fun a member => by cases member⟩
  have decided : PgPkgStates (pgRootDecided ctx rootPkg rootVersion roots) :=
    (pgRootsPushed_pkgStates new roots).push _
  cases started with
  | failed => exact decided.of_eq (fun _ => rfl) rfl (Nat.le_refl _)
  | @registered ctx' deps answer =>
    have added : PgPkgStates (pgAddDependencies
        { pgRootDecided ctx rootPkg rootVersion roots with providerCtx := ctx' }
        rootPkg (pgRangeExact rootVersion) deps) := by
      apply PgPkgStates.addDependencies
      exact decided.of_eq (fun _ => rfl) rfl (Nat.le_refl _)
    exact added.of_eq (fun _ => rfl) rfl (Nat.le_refl _)

end ElmWrap
