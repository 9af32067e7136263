import ElmWrap.PgSolver.Conflict
import ElmWrap.PgSolver.Watch
import ElmWrap.PgSolver.Solution

/-!
# Backjumping

`pg_resolve_conflict` stops at an incompatibility and a level to return to. If
the satisfier lies above that level, is the only thing that satisfies its term,
and the rest of the incompatibility is satisfied by positive assignments, then
backtracking leaves the incompatibility with that one term open: propagation
derives from it, and the trail of the conflict is never seen again. The stop
condition of the source also holds when the two levels are the same, and then
none of this follows.
-/

namespace ElmWrap

open Lib

variable {γ : Type} {P : PgDependencyProvider γ}

/-! ## The previous level -/

variable {trail : List PgAssignment}

theorem pgFindAssignmentForTerm_some {term : PgTerm} {a : PgAssignment}
    (found : pgFindAssignmentForTerm trail term = some a) :
    a ∈ trail ∧ pgAssignmentSatisfiesTerm a term = true := by
  unfold pgFindAssignmentForTerm at found
  have satisfies := List.find?_some found
  exact ⟨List.mem_reverse.mp (List.mem_of_find?_eq_some found), satisfies⟩

theorem pgFindAssignmentForTerm_exists {term : PgTerm} {b : PgAssignment} (member : b ∈ trail)
    (satisfies : pgAssignmentSatisfiesTerm b term = true) :
    ∃ a, pgFindAssignmentForTerm trail term = some a := by
  cases found : pgFindAssignmentForTerm trail term with
  | some a => exact ⟨a, rfl⟩
  | none =>
    have missed := List.find?_eq_none.mp found b (List.mem_reverse.mpr member)
    exact absurd satisfies missed

/-- The loop only raises the level, and by levels it finds. -/
theorem pgPreviousLevel_foldl {trail : List PgAssignment} {skipPkg : PgPackageId} :
    ∀ (terms : List PgTerm) (level : Nat),
      level ≤ terms.foldl (pgPreviousLevelStep trail skipPkg) level ∧
        (∀ t ∈ terms, t.pkg ≠ skipPkg → ∀ a, pgFindAssignmentForTerm trail t = some a →
          a.decisionLevel ≤ terms.foldl (pgPreviousLevelStep trail skipPkg) level) ∧
        (terms.foldl (pgPreviousLevelStep trail skipPkg) level = level ∨
          ∃ t ∈ terms, ∃ a, pgFindAssignmentForTerm trail t = some a ∧
            a.decisionLevel = terms.foldl (pgPreviousLevelStep trail skipPkg) level) := by
  intro terms
  induction terms with
  | nil => intro level; simp
  | cons term terms ih =>
    intro level
    rw [List.foldl_cons]
    obtain ⟨above, bound, attained⟩ := ih (pgPreviousLevelStep trail skipPkg level term)
    have step : level ≤ pgPreviousLevelStep trail skipPkg level term ∧
        (term.pkg ≠ skipPkg → ∀ a, pgFindAssignmentForTerm trail term = some a →
          a.decisionLevel ≤ pgPreviousLevelStep trail skipPkg level term) ∧
        (pgPreviousLevelStep trail skipPkg level term = level ∨
          ∃ a, pgFindAssignmentForTerm trail term = some a ∧
            a.decisionLevel = pgPreviousLevelStep trail skipPkg level term) := by
      unfold pgPreviousLevelStep
      split
      · rename_i same
        exact ⟨Nat.le_refl _, fun other => absurd same other, Or.inl rfl⟩
      · split
        · rename_i a found
          split
          · rename_i higher
            refine ⟨by omega, fun _ b same => ?_, Or.inr ⟨a, found, rfl⟩⟩
            rw [found] at same
            cases same
            exact Nat.le_refl _
          · rename_i lower
            refine ⟨Nat.le_refl _, fun _ b same => ?_, Or.inl rfl⟩
            rw [found] at same
            cases same
            omega
        · rename_i missing
          refine ⟨Nat.le_refl _, fun _ b same => ?_, Or.inl rfl⟩
          rw [missing] at same
          cases same
    refine ⟨Nat.le_trans step.1 above, ?_, ?_⟩
    · intro t member other a found
      rcases List.mem_cons.mp member with rfl | later
      · exact Nat.le_trans (step.2.1 other a found) above
      · exact bound t later other a found
    · rcases attained with same | ⟨t, member, a, found, level_eq⟩
      · rcases step.2.2 with kept | ⟨a, found, level_eq⟩
        · exact Or.inl (same.trans kept)
        · exact Or.inr ⟨term, List.mem_cons_self, a, found, level_eq.trans same.symm⟩
      · exact Or.inr ⟨t, List.mem_cons_of_mem _ member, a, found, level_eq⟩

theorem pgIncompatibilityPreviousLevel_bound {terms : List PgTerm} {skipPkg : PgPackageId}
    {t : PgTerm} (member : t ∈ terms) (other : t.pkg ≠ skipPkg) {a : PgAssignment}
    (found : pgFindAssignmentForTerm trail t = some a) :
    a.decisionLevel ≤ pgIncompatibilityPreviousLevel trail terms skipPkg :=
  (pgPreviousLevel_foldl terms 0).2.1 t member other a found

theorem pgIncompatibilityPreviousLevel_attained {terms : List PgTerm} {skipPkg : PgPackageId}
    (positive : 1 ≤ pgIncompatibilityPreviousLevel trail terms skipPkg) :
    ∃ t ∈ terms, ∃ a ∈ trail, a.pkg = t.pkg ∧
      a.decisionLevel = pgIncompatibilityPreviousLevel trail terms skipPkg := by
  have spec := @pgPreviousLevel_foldl trail skipPkg terms 0
  rcases spec.2.2 with zero | ⟨t, member, a, found, level_eq⟩
  · rw [pgIncompatibilityPreviousLevel] at positive
    omega
  · obtain ⟨on, satisfies⟩ := pgFindAssignmentForTerm_some found
    exact ⟨t, member, a, on, pgAssignmentSatisfiesTerm_pkg satisfies, level_eq⟩

/-! ## What a cut keeps and drops -/

theorem pgTrailCut_split (level : Nat) (trail : List PgAssignment) :
    ∃ dropped, trail = pgTrailCut level trail ++ dropped ∧
      ∀ b ∈ dropped, level < b.decisionLevel := by
  induction trail using List.reverseRecOn with
  | nil => exact ⟨[], rfl, by simp⟩
  | append_singleton trail b ih =>
    rw [pgTrailCut, List.rdropWhile_concat]
    split
    · rename_i high
      obtain ⟨dropped, split, above⟩ := ih
      refine ⟨dropped ++ [b], ?_, ?_⟩
      · rw [← List.append_assoc]
        exact congrArg (· ++ [b]) split
      · intro c member
        rcases List.mem_append.mp member with old | new
        · exact above c old
        · rw [List.mem_singleton.mp new]
          exact of_decide_eq_true high
    · exact ⟨[], by simp, by simp⟩

/-- A cut keeps every assignment at or below its level. -/
theorem mem_pgTrailCut {level : Nat} {a : PgAssignment} (member : a ∈ trail)
    (low : a.decisionLevel ≤ level) : a ∈ pgTrailCut level trail := by
  obtain ⟨dropped, split, above⟩ := pgTrailCut_split level trail
  rw [split] at member
  rcases List.mem_append.mp member with kept | gone
  · exact kept
  · have high := above a gone
    omega

/-! ## Levels start with a decision -/

/-- The current level is the level of an assignment. -/
def PgInhabited (s : PgSolver γ) : Prop :=
  ∃ a ∈ s.trail, a.decisionLevel = s.currentDecisionLevel

/-- A derivation is made at the level of an earlier assignment. -/
def PgLayered (trail : List PgAssignment) : Prop :=
  ∀ pre a post, trail = pre ++ a :: post → a.cause ≠ none →
    ∃ b ∈ pre, b.decisionLevel = a.decisionLevel

theorem PgLayered.shorter (layered : PgLayered trail) {shorter : List PgAssignment}
    (initial : shorter <+: trail) : PgLayered shorter := by
  intro pre a post split cause
  obtain ⟨rest, whole⟩ := initial
  exact layered pre a (post ++ rest) (by rw [← whole, split]; simp) cause

theorem PgLayered.snoc (layered : PgLayered trail) {b : PgAssignment}
    (new : b.cause ≠ none → ∃ c ∈ trail, c.decisionLevel = b.decisionLevel) :
    PgLayered (trail ++ [b]) := by
  intro pre a post split cause
  rcases List.eq_nil_or_concat' post with rfl | ⟨post, last, rfl⟩
  · obtain ⟨rfl, same⟩ := List.append_inj' split rfl
    cases same
    exact new cause
  · rw [← List.cons_append, ← List.append_assoc] at split
    obtain ⟨old, -⟩ := List.append_inj' split rfl
    exact layered pre a post old cause

theorem PgTransition.inhabited {c c' : PgConfig γ} (step : PgTransition P c c') (live : c'.Live)
    (inhabited : PgInhabited c.solver) : PgInhabited c'.solver := by
  cases step with
  | derive => exact ⟨_, List.mem_append_right _ (List.mem_singleton_self _), rfl⟩
  | decideError => exact absurd rfl (live _)
  | noVersions outcome => cases outcome; simpa [PgInhabited] using inhabited
  | finished => exact absurd rfl (live _)
  | @decided s s' outcome =>
    cases outcome with
    | @made cv pkg version ctx deps choice answer =>
      refine ⟨pgDecisionAssignment pkg version (s.currentDecisionLevel + 1), ?_, ?_⟩
      · simp only [pgAddDependencies_trail]
        exact List.mem_append_right _ (List.mem_singleton_self _)
      · simp only [pgAddDependencies_currentDecisionLevel]
        rfl
  | giveUp => exact absurd rfl (live _)
  | resolved outcome => cases outcome; exact inhabited
  | learned outcome =>
    cases outcome with
    | learned notRoot at_ stop high =>
      obtain ⟨t, -, a, member, -, level_eq⟩ :=
        pgIncompatibilityPreviousLevel_attained (Nat.le_of_not_lt high)
      refine ⟨a, ?_, level_eq⟩
      simp only [backtrack_trail, attach_trail]
      exact mem_pgTrailCut member (Nat.le_of_eq level_eq)
  | _ => exact inhabited

theorem PgTransition.layered {c c' : PgConfig γ} (step : PgTransition P c c')
    (inhabited : c.Live → PgInhabited c.solver) (layered : PgLayered c.solver.trail) :
    PgLayered c'.solver.trail := by
  have change := step.trail
  generalize c'.solver.trail = trail at change
  cases change with
  | same => exact layered
  | derived => exact layered.snoc fun _ => inhabited (by intro status same; cases same)
  | decided => exact layered.snoc fun cause => absurd rfl cause
  | cut => exact layered.shorter (pgTrailCut_initial _ _)

/-- What backjumping needs of every configuration of a run. -/
structure PgStacked (roots : List PgDependency) (c : PgConfig γ) : Prop where
  well : PgWellFormed roots c
  propagates : PgPropagates c
  inhabited : c.Live → PgInhabited c.solver
  layered : PgLayered c.solver.trail

theorem PgStacked.step {roots : List PgDependency} {c : PgConfig γ}
    (stacked : PgStacked roots c) : PgStacked roots (pgStep P c) where
  well := stacked.well.step
  propagates := (pgStep_transition P c).propagates stacked.well.watches stacked.propagates
  inhabited live := by
    have step := pgStep_transition P c
    exact step.inhabited live (stacked.inhabited (step.live live))
  layered := (pgStep_transition P c).layered stacked.inhabited stacked.layered

theorem PgStacked.start {ctx : γ} {rootPkg : PgPackageId} {rootVersion : PgVersion}
    {roots : List PgDependency} {c : PgConfig γ}
    (started : PgStarted P ctx rootPkg rootVersion roots c) : PgStacked roots c := by
  have trail : c.solver.trail = roots.map pgRootAssignment ++
      [pgDecisionAssignment rootPkg rootVersion 1] := by
    rw [← pgRootDecided_trail ctx rootPkg rootVersion roots]
    cases started <;> simp
  refine ⟨PgWellFormed.start started, PgPropagates.start started, fun live => ?_, ?_⟩
  · refine ⟨pgDecisionAssignment rootPkg rootVersion 1, by rw [trail]; simp, ?_⟩
    cases started with
    | failed => exact absurd rfl (live _)
    | registered => rfl
  · intro pre a post split cause
    have member : a ∈ c.solver.trail := by rw [split]; simp
    rw [trail] at member
    rcases List.mem_append.mp member with required | decided
    · obtain ⟨dep, -, rfl⟩ := List.mem_map.mp required
      exact absurd rfl cause
    · rw [List.mem_singleton.mp decided] at cause
      exact absurd rfl cause

theorem PgReachable.stacked {ctx : γ} {rootPkg : PgPackageId} {rootVersion : PgVersion}
    {roots : List PgDependency} {c : PgConfig γ}
    (reachable : PgReachable P ctx rootPkg rootVersion roots c) : PgStacked roots c := by
  obtain ⟨start, started, run⟩ := reachable
  exact Reaches.invariant run (PgStacked.start started.started) fun _ stacked => stacked.step

/-! ## When a backjump is right -/

/-- The incompatibility `pg_resolve_conflict` stops at is worth backjumping for:
its satisfier lies above the level to return to and is all that satisfies its
package's one term, the other terms are satisfied by positive assignments, and
below the cut no incompatibility is satisfied. -/
structure PgSoundBackjump (s : PgSolver γ) (current : PgIncompatId) (index termIndex : Nat)
    (satisfier : PgAssignment) (term : PgTerm) : Prop where
  above : pgPreviousLevelAt s current satisfier < satisfier.decisionLevel
  single : ∀ i t, (s.terms current)[i]? = some t → t.pkg = satisfier.pkg → i = termIndex
  open_ : pgTermState (s.trail.take index) term = .inconclusive
  positive : ∀ t ∈ s.terms current, t.pkg ≠ satisfier.pkg →
    ∀ a, pgFindAssignmentForTerm s.trail t = some a → a.positive = true
  quiet : ∀ id, s.Attached id → ¬ ∀ t ∈ s.terms id,
    pgTermState (pgTrailCut (pgPreviousLevelAt s current satisfier) s.trail) t = .satisfied

/-- The state `pg_solver_solve` goes on with after a learned incompatibility. -/
def pgBackjumped (s : PgSolver γ) (current : PgIncompatId) (level : Nat) : PgSolver γ :=
  pgSolverBacktrackToLevel (pgSolverAttachIncompatibility s current) level

@[simp] theorem pgBackjumped_trail (s : PgSolver γ) (current : PgIncompatId) (level : Nat) :
    (pgBackjumped s current level).trail = pgTrailCut level s.trail := by
  simp [pgBackjumped]

theorem pgBackjumped_terms (s : PgSolver γ) (current : PgIncompatId) (level : Nat)
    (id : PgIncompatId) : (pgBackjumped s current level).terms id = s.terms id := by
  simp [pgBackjumped, PgSolver.terms]

theorem pgBackjumped_attached {s : PgSolver γ} {current : PgIncompatId} (level : Nat)
    (tracked : s.Tracked current) (id : PgIncompatId) :
    (pgBackjumped s current level).Attached id ↔ id = current ∨ s.Attached id := by
  have length : (pgBackjumped s current level).Tracked id ↔ s.Tracked id := by
    simp [pgBackjumped, PgSolver.Tracked]
  have flag : ((pgBackjumped s current level).incompat id).attached = true ↔
      id = current ∨ (s.incompat id).attached = true := by
    rw [pgBackjumped, backtrack_incompat]
    exact attach_attached_iff s current tracked id
  rw [PgSolver.Attached, length, flag]
  constructor
  · intro both
    obtain ⟨stored, on⟩ := both
    rcases on with same | on
    · exact Or.inl same
    · exact Or.inr ⟨stored, on⟩
  · intro on
    rcases on with same | ⟨stored, on⟩
    · subst same
      exact ⟨tracked, Or.inl rfl⟩
    · exact ⟨stored, Or.inr on⟩

section Learned

variable {roots : List PgDependency} {s : PgSolver γ} {current : PgIncompatId} {level : Nat}
  {index termIndex : Nat} {satisfier : PgAssignment} {term : PgTerm}

/-- The incompatibility is unit on the trail cut back, with its satisfier's term
open. -/
theorem PgSoundBackjump.unit
    (sound : PgSoundBackjump s current index termIndex satisfier term)
    (at_ : PgSatisfierAt s current index termIndex satisfier term)
    (level_eq : pgPreviousLevelAt s current satisfier = level) (levels : PgLevels s) :
    PgUnit (pgTrailCut level s.trail) (s.terms current) term := by
  obtain ⟨pre, post, spec⟩ := at_.spec
  have above := sound.above
  rw [level_eq] at above
  -- the cut lies before the satisfier
  have before : pgTrailCut level s.trail <+: pre := by
    have short : ¬ satisfier ∈ pgTrailCut level s.trail := by
      intro member
      have low := level_le_of_mem_pgTrailCut levels.sorted member
      omega
    have initial : pre ++ [satisfier] <+: s.trail := ⟨post, by rw [spec.split]; simp⟩
    rcases List.prefix_or_prefix_of_prefix (pgTrailCut_initial level s.trail) initial with
      shorter | longer
    · rcases List.prefix_concat_iff.mp shorter with whole | earlier
      · exact absurd (by rw [whole]; simp) short
      · exact earlier
    · exact absurd (longer.subset (by simp)) short
  have open_ : pgTermState pre term = .inconclusive := by
    have here := sound.open_
    rw [spec.split, spec.index_eq, List.take_left] at here
    exact here
  have lt : termIndex < (s.terms current).length := by
    obtain ⟨h, -⟩ := List.getElem?_eq_some_iff.mp spec.term_at
    exact h
  have here : (s.terms current)[termIndex] = term := by
    have found := spec.term_at
    rw [List.getElem?_eq_getElem lt] at found
    exact Option.some.inj found
  refine ⟨(s.terms current).take termIndex, (s.terms current).drop (termIndex + 1), ?_,
    (pgTermState_longer before).2 open_, ?_⟩
  · rw [← here, List.getElem_cons_drop, List.take_append_drop]
  · intro t member
    have other : t ∈ s.terms current ∧ t.pkg ≠ satisfier.pkg := by
      rcases List.mem_append.mp member with left | right
      · obtain ⟨i, bound, rfl⟩ := List.mem_iff_getElem.mp left
        rw [List.length_take] at bound
        refine ⟨List.mem_of_mem_take left, fun same => ?_⟩
        have position : (s.terms current)[i]? = some (((s.terms current).take termIndex)[i]) := by
          rw [List.getElem_take, List.getElem?_eq_getElem]
        have where_ := sound.single i _ position same
        omega
      · obtain ⟨i, bound, rfl⟩ := List.mem_iff_getElem.mp right
        rw [List.length_drop] at bound
        refine ⟨List.mem_of_mem_drop right, fun same => ?_⟩
        have position : (s.terms current)[termIndex + 1 + i]? =
            some (((s.terms current).drop (termIndex + 1))[i]) := by
          rw [List.getElem_drop, List.getElem?_eq_getElem]
        have where_ := sound.single (termIndex + 1 + i) _ position same
        omega
    obtain ⟨b, on, -, satisfies⟩ := spec.low levels.sorted t other.1
    obtain ⟨a, found⟩ := pgFindAssignmentForTerm_exists on satisfies
    obtain ⟨onTrail, holds⟩ := pgFindAssignmentForTerm_some found
    have low : a.decisionLevel ≤ level := by
      rw [← level_eq]
      exact pgIncompatibilityPreviousLevel_bound other.1 other.2 found
    exact pgTermState_of_satisfies (mem_pgTrailCut onTrail low)
      (sound.positive t other.1 other.2 a found) holds

/-- A decision follows the trail cut back, in the trail of the conflict. -/
theorem pgTrailCut_decision (entries : ∀ a ∈ s.trail, PgEntry roots s a)
    (levels : PgLevels s) (layered : PgLayered s.trail)
    (above : ∃ a ∈ s.trail, level < a.decisionLevel) :
    ∃ d, d.decided = true ∧ pgTrailCut level s.trail ++ [d] <+: s.trail := by
  obtain ⟨dropped, split, high⟩ := pgTrailCut_split level s.trail
  cases dropped with
  | nil =>
    obtain ⟨a, member, up⟩ := above
    rw [split, List.append_nil] at member
    have low := level_le_of_mem_pgTrailCut levels.sorted member
    omega
  | cons d rest =>
    refine ⟨d, ?_, rest, by rw [List.append_assoc]; exact split.symm⟩
    have member : d ∈ s.trail := by rw [split]; simp
    have up := high d List.mem_cons_self
    cases entries d member with
    | required => exact absurd up (Nat.not_lt_zero _)
    | root => rfl
    | decision => rfl
    | derived =>
      -- a derivation is at the level of an assignment that the cut has kept
      obtain ⟨b, kept, same⟩ := layered _ _ _ split (by intro none; cases none)
      have low := level_le_of_mem_pgTrailCut levels.sorted kept
      omega

end Learned

/-! ## The derivation that follows -/

/-- The phases of unit propagation, with the budget check before it. -/
def PgPhase.propagating : PgPhase → Bool
  | .loop => true
  | .propagate => true
  | .examine _ => true
  | _ => false

/-- Unit propagation gets from `c` to a configuration with one more derivation on
the trail. -/
def PgDerives (P : PgDependencyProvider γ) (c : PgConfig γ) : Prop :=
  ∃ c' a, Guarded (pgStep P) (fun d => d.phase.propagating = true) c c' ∧
    c'.phase.propagating = true ∧ a.decided = false ∧
    c'.solver.trail = c.solver.trail ++ [a]

theorem PgDerives.after_step {c : PgConfig γ} (propagating : c.phase.propagating = true)
    (same : (pgStep P c).solver.trail = c.solver.trail) (derives : PgDerives P (pgStep P c)) :
    PgDerives P c := by
  obtain ⟨c', a, run, phase, derived, trail⟩ := derives
  rw [same] at trail
  exact ⟨c', a, ((Guarded.refl c).next propagating).trans run, phase, derived, trail⟩

theorem pgExamineTerms_append {pre rest : List PgTerm}
    (satisfied : ∀ t ∈ pre, pgTermState trail t = .satisfied) (index : Nat) (seen : Option Nat) :
    pgExamineTerms trail index seen (pre ++ rest) =
      pgExamineTerms trail (index + pre.length) seen rest := by
  induction pre generalizing index with
  | nil => rfl
  | cons term pre ih =>
    rw [List.cons_append, pgExamineTerms_cons, satisfied term List.mem_cons_self]
    dsimp only
    rw [ih (fun t member => satisfied t (List.mem_cons_of_mem _ member)), List.length_cons]
    congr 1
    omega

/-- A unit incompatibility is not skipped. -/
theorem PgUnit.not_settled {terms : List PgTerm} {term : PgTerm} (unit : PgUnit trail terms term) :
    ¬ PgSettled trail terms := by
  obtain ⟨pre, post, rfl, open_, satisfied⟩ := unit
  intro settled
  have left : ∀ t ∈ pre, pgTermState trail t = .satisfied :=
    fun t member => satisfied t (List.mem_append_left _ member)
  have right : ∀ t ∈ post, pgTermState trail t = .satisfied :=
    fun t member => satisfied t (List.mem_append_right _ member)
  unfold PgSettled at settled
  rw [pgExamineTerms_append left, pgExamineTerms_cons, open_] at settled
  dsimp only at settled
  rw [← List.append_nil post, pgExamineTerms_append right] at settled
  cases settled

/-- A state in which one attached incompatibility is unit and none is satisfied. -/
structure PgPoised (s : PgSolver γ) (learned : PgIncompatId) (term : PgTerm) : Prop where
  watches : PgWatches s
  attached : s.Attached learned
  unit : PgUnit s.trail (s.terms learned) term
  quiet : ∀ id, s.Attached id → ¬ ∀ t ∈ s.terms id, pgTermState s.trail t = .satisfied

theorem PgPoised.examine {s : PgSolver γ} {learned : PgIncompatId} {term : PgTerm}
    (poised : PgPoised s learned term)
    (later : PgPending s.changedPkgs (s.terms learned) → PgDerives P ⟨.propagate, s⟩) :
    ∀ rest : List PgIncompatId, (∀ id ∈ rest, s.Attached id) →
      (learned ∈ rest ∨ PgPending s.changedPkgs (s.terms learned)) →
      PgDerives P ⟨.examine rest, s⟩ := by
  intro rest
  induction rest with
  | nil =>
    intro _ waits
    apply PgDerives.after_step rfl rfl
    rcases waits with no | pending
    · cases no
    · exact later pending
  | cons id rest ih =>
    intro attached waits
    have here : s.Attached id := attached id List.mem_cons_self
    have others : ∀ j ∈ rest, s.Attached j :=
      fun j member => attached j (List.mem_cons_of_mem _ member)
    cases run : pgExamineTerms s.trail 0 none (s.incompat id).terms with
    | conflict => exact absurd (pgExamineTerms_conflict run) (poised.quiet id here)
    | derive t =>
      have step : pgStep P ⟨.examine (id :: rest), s⟩ = ⟨.examine rest,
          pgSolverPushAssignment s (pgAssignmentFromTermNegation
            ((s.incompat id).terms.getD t pgNoTerm) id s.currentDecisionLevel)⟩ := by
        simp only [pgStep, run]
      refine ⟨pgStep P ⟨.examine (id :: rest), s⟩, pgAssignmentFromTermNegation
        ((s.incompat id).terms.getD t pgNoTerm) id s.currentDecisionLevel,
        (Guarded.refl _).next rfl, ?_, rfl, ?_⟩
      · rw [step]; rfl
      · rw [step]; rfl
    | skip =>
      have step : pgStep P ⟨.examine (id :: rest), s⟩ = ⟨.examine rest, s⟩ := by
        simp only [pgStep, run]
      apply PgDerives.after_step rfl
      · rw [step]
      · rw [step]
        apply ih others
        rcases waits with member | pending
        · rcases List.mem_cons.mp member with rfl | member
          · exact absurd run poised.unit.not_settled
          · exact Or.inl member
        · exact Or.inr pending

theorem PgPoised.propagate {learned : PgIncompatId} {term : PgTerm} :
    ∀ (changed : List PgPackageId) (s : PgSolver γ), s.changedPkgs = changed →
      PgPoised s learned term → PgPending changed (s.terms learned) →
      PgDerives P ⟨.propagate, s⟩ := by
  intro changed
  induction changed with
  | nil =>
    intro s _ _ pending
    obtain ⟨t, -, on⟩ := pending
    cases on
  | cons pkg changed ih =>
    intro s stack poised pending
    have step : pgStep P ⟨.propagate, s⟩ =
        ⟨.examine (s.pkgIncompatList pkg).reverse, { s with changedPkgs := changed }⟩ := by
      simp only [pgStep, stack]
    have popped : PgPoised { s with changedPkgs := changed } learned term :=
      ⟨poised.watches.of_eq rfl fun _ => rfl, poised.attached, poised.unit, poised.quiet⟩
    apply PgDerives.after_step rfl
    · rw [step]
    · rw [step]
      apply popped.examine (fun pending => ih _ rfl popped pending)
      · intro id member
        exact ((poised.watches pkg id).mp (List.mem_reverse.mp member)).1
      · obtain ⟨t, member, on⟩ := pending
        rcases List.mem_cons.mp on with same | later
        · apply Or.inl
          exact List.mem_reverse.mpr
            ((poised.watches pkg learned).mpr ⟨poised.attached, t, member, same⟩)
        · exact Or.inr ⟨t, member, later⟩

/-! ## The trail does not come back -/

/-- As long as the unit incompatibility is stored, no decision is made on the
trail it is unit on. -/
structure PgBarred (roots : List PgDependency) (trail : List PgAssignment)
    (learned : PgIncompatId) (terms : List PgTerm) (c : PgConfig γ) : Prop where
  stacked : PgStacked roots c
  attached : c.solver.Attached learned
  terms_eq : c.solver.terms learned = terms
  barred : ∀ d : PgAssignment, d.decided = true → ¬ trail ++ [d] <+: c.solver.trail

theorem PgBarred.step {roots : List PgDependency} {learned : PgIncompatId} {terms : List PgTerm}
    {term : PgTerm} (unit : PgUnit trail terms term) (touched : PgTouched trail terms)
    {c : PgConfig γ} (holds : PgBarred roots trail learned terms c) :
    PgBarred roots trail learned terms (pgStep P c) := by
  have step := pgStep_transition P c
  have extends_ : PgExtends c.solver (pgStep P c).solver :=
    step.extends fun current phase => by
      have refers := holds.stacked.well.refers
      rw [phase] at refers
      exact refers
  refine ⟨holds.stacked.step, extends_.attached holds.attached,
    (extends_.terms holds.attached.1).trans holds.terms_eq, fun d decided initial => ?_⟩
  have change := step.trail
  generalize (pgStep P c).solver.trail = trail' at change initial
  cases change with
  | same => exact holds.barred d decided initial
  | derived =>
    rcases List.prefix_concat_iff.mp initial with whole | earlier
    · obtain ⟨-, last⟩ := List.append_inj' whole rfl
      rw [List.singleton_inj.mp last] at decided
      cases decided
    · exact holds.barred d decided earlier
  | @decided s cv pkg version choice =>
    rcases List.prefix_concat_iff.mp initial with whole | earlier
    · -- the decision would be made with an incompatibility left to propagate
      obtain ⟨same, -⟩ := List.append_inj' whole rfl
      have here : PgTouched s.trail (s.terms learned) := by
        rw [← same, show s.terms learned = terms from holds.terms_eq]
        exact touched
      have propagates := holds.stacked.propagates
      rcases propagates.covered rfl learned holds.attached here with settled | pending | waits
      · rw [show s.terms learned = terms from holds.terms_eq, ← same] at settled
        exact unit.not_settled settled
      · obtain ⟨t, -, on⟩ := pending
        rw [propagates.drained rfl] at on
        cases on
      · cases waits
    · exact holds.barred d decided earlier
  | cut => exact holds.barred d decided (initial.trans (pgTrailCut_initial _ _))

/-- If `pg_resolve_conflict` stops in a reachable state at an incompatibility worth
backjumping for, then after the backtrack the incompatibility is unit, the unit
propagation that follows derives something, budget permitting, and the trail of
the conflict never returns. -/
theorem pgResolveConflict_backjump {ctx : γ} {rootPkg : PgPackageId} {rootVersion : PgVersion}
    {roots : List PgDependency} {s s' : PgSolver γ} {current : PgIncompatId} {level : Nat}
    (reachable : PgReachable P ctx rootPkg rootVersion roots ⟨.resolve current, s⟩)
    (learned : pgResolveConflictIteration s current = (s', .learned level))
    (sound : ∀ index termIndex satisfier term,
      PgSatisfierAt s current index termIndex satisfier term →
      PgSoundBackjump s current index termIndex satisfier term) :
    (∃ term, PgUnit (pgBackjumped s current level).trail
        ((pgBackjumped s current level).terms current) term) ∧
      (pgSolverBudgetCheck (pgBackjumped s current level) = none →
        PgDerives P ⟨.loop, pgBackjumped s current level⟩) ∧
      ∀ later, Reaches (pgStep P) ⟨.loop, pgBackjumped s current level⟩ later →
        later.solver.trail ≠ s.trail := by
  have stacked := reachable.stacked
  have tracked : s.Tracked current := stacked.well.refers
  have levels := stacked.well.levels (by intro status same; cases same)
  have next : pgStep P ⟨.resolve current, s⟩ = ⟨.loop, pgBackjumped s current level⟩ := by
    have unchanged := pgResolveConflictIteration_outcome learned
    have same : s' = s := by cases unchanged; rfl
    simp only [pgStep, learned, same]
    rfl
  obtain ⟨index, termIndex, satisfier, term, at_, level_eq, started⟩ : ∃ index termIndex satisfier
      term, PgSatisfierAt s current index termIndex satisfier term ∧
        pgPreviousLevelAt s current satisfier = level ∧ 1 ≤ level := by
    have outcome := pgResolveConflictIteration_outcome learned
    cases outcome with
    | learned notRoot at_ stop high => exact ⟨_, _, _, _, at_, rfl, Nat.le_of_not_lt high⟩
  have good := sound index termIndex satisfier term at_
  have unit := good.unit at_ level_eq levels
  have touched : PgTouched (pgTrailCut level s.trail) (s.terms current) := by
    rw [← level_eq] at started ⊢
    obtain ⟨t, member, a, on, same, at_level⟩ := pgIncompatibilityPreviousLevel_attained started
    exact ⟨t, member, a, mem_pgTrailCut on (Nat.le_of_eq at_level), same⟩
  have after := stacked.step (P := P)
  rw [next] at after
  have attached : (pgBackjumped s current level).Attached current :=
    (pgBackjumped_attached level tracked current).mpr (Or.inl rfl)
  refine ⟨⟨term, by rw [pgBackjumped_trail, pgBackjumped_terms]; exact unit⟩,
    fun budget => ?_, fun later run => ?_⟩
  · have step : pgStep P ⟨.loop, pgBackjumped s current level⟩ =
        ⟨.propagate, pgBackjumped s current level⟩ := by
      simp only [pgStep, budget]
    have poised : PgPoised (pgBackjumped s current level) current term := by
      refine ⟨after.well.watches, attached, ?_, fun id on => ?_⟩
      · rw [pgBackjumped_trail, pgBackjumped_terms]
        exact unit
      · rw [pgBackjumped_trail, pgBackjumped_terms]
        rcases (pgBackjumped_attached level tracked id).mp on with same | old
        · subst same
          intro all
          obtain ⟨pre, post, split, open_, -⟩ := unit
          have closed := all term (by rw [split]; simp)
          rw [open_] at closed
          cases closed
        · rw [← level_eq]
          exact good.quiet id old
    have pending : PgPending (pgBackjumped s current level).changedPkgs
        ((pgBackjumped s current level).terms current) := by
      rw [pgBackjumped_terms]
      obtain ⟨t, member, a, on, same⟩ := touched
      refine ⟨t, member, ?_⟩
      rw [← same, pgBackjumped, mem_backtrack_changedPkgs, attach_trail]
      exact ⟨a, on, rfl⟩
    apply PgDerives.after_step rfl
    · rw [step]
    · rw [step]
      exact PgPoised.propagate _ _ rfl poised pending
  · have up : ∃ a ∈ s.trail, level < a.decisionLevel := by
      obtain ⟨pre, post, spec⟩ := at_.spec
      exact ⟨satisfier, spec.member, by rw [← level_eq]; exact good.above⟩
    obtain ⟨d, decided, initial⟩ :=
      pgTrailCut_decision stacked.well.entries levels stacked.layered up
    have barred : PgBarred roots (pgTrailCut level s.trail) current (s.terms current)
        ⟨.loop, pgBackjumped s current level⟩ := by
      refine ⟨after, attached, pgBackjumped_terms s current level current, fun d _ more => ?_⟩
      rw [pgBackjumped_trail] at more
      have short := more.length_le
      rw [List.length_append, List.length_singleton] at short
      omega
    have holds := Reaches.invariant run barred fun _ holds => holds.step unit touched
    intro same
    apply holds.barred d decided
    rw [same]
    exact initial

/-- The newer version of package 1 needs a version of package 2 that does not
exist, while package 2 is required anyway. -/
def pgNarrow : PgProblem where
  listing := .ofTables [(1, [⟨2, 0, 0⟩, ⟨1, 0, 0⟩]), (2, [⟨1, 0, 0⟩])]
    [((1, ⟨2, 0, 0⟩), [(2, pgRangeExact ⟨5, 0, 0⟩)])]
  rootPkg := 0
  rootVersion := ⟨1, 0, 0⟩
  roots := [(1, pgRangeAny), (2, pgRangeAny)]

/-- The first configuration of its run. -/
def pgNarrowStart : PgConfig Unit :=
  pgSolverStart pgNarrow.listing.provider
    (pgRootsPushed (pgSolverNew () pgNarrow.rootPkg pgNarrow.rootVersion) pgNarrow.roots)

/-- The configuration of its run in which the conflict is resolved. -/
def pgNarrowConflict : PgConfig Unit :=
  pgRun pgNarrow.listing.provider 17 pgNarrowStart

theorem pgNarrow_started : PgStart pgNarrow.listing.provider () pgNarrow.rootPkg
    pgNarrow.rootVersion pgNarrow.roots pgNarrowStart := ⟨_, rfl, rfl⟩

theorem pgNarrowConflict_phase : pgNarrowConflict.phase = .resolve 0 := by decide

theorem pgNarrowConflict_learned : (pgResolveConflictIteration pgNarrowConflict.solver 0).2 =
    .learned 2 := by decide

theorem pgNarrow_sound (index termIndex : Nat) (satisfier : PgAssignment) (term : PgTerm)
    (at_ : PgSatisfierAt pgNarrowConflict.solver 0 index termIndex satisfier term) :
    PgSoundBackjump pgNarrowConflict.solver 0 index termIndex satisfier term := by
  have found : pgIncompatibilityFindSatisfier pgNarrowConflict.solver.trail
      (pgNarrowConflict.solver.incompat 0).terms = some (4, 0) := by decide
  cases found.symm.trans at_.found
  have assignment : satisfier = pgDecisionAssignment 1 ⟨2, 0, 0⟩ 3 := by
    rw [at_.satisfier_eq]
    decide
  have terms : pgNarrowConflict.solver.terms 0 =
      pgDependencyTerms 1 (pgRangeExact ⟨2, 0, 0⟩) (2, pgRangeExact ⟨5, 0, 0⟩) := by
    decide
  have term_eq : term = ⟨1, pgRangeExact ⟨2, 0, 0⟩, true⟩ := by
    rw [at_.term_eq]
    decide
  subst assignment term_eq
  refine ⟨by decide, ?_, by decide, ?_, ?_⟩
  · intro i t position same
    rw [terms] at position
    match i, position with
    | 0, _ => rfl
    | 1, position =>
      cases position
      exact absurd same (by decide)
  · have positive : ∀ t ∈ pgNarrowConflict.solver.terms 0, t.pkg ≠ 1 →
        (pgFindAssignmentForTerm pgNarrowConflict.solver.trail t).all PgAssignment.positive =
          true := by decide
    intro t member other a here
    have holds := positive t member other
    rw [here] at holds
    exact holds
  · have quiet : ∀ id < pgNarrowConflict.solver.incompatibilities.length,
        ¬ ∀ t ∈ pgNarrowConflict.solver.terms id,
          pgTermState (pgTrailCut (pgPreviousLevelAt pgNarrowConflict.solver 0
            (pgDecisionAssignment 1 ⟨2, 0, 0⟩ 3)) pgNarrowConflict.solver.trail) t =
              .satisfied := by decide
    exact fun id on => quiet id on.1

theorem pgResolveConflict_backjump_narrow :
    PgDerives pgNarrow.listing.provider ⟨.loop, pgBackjumped pgNarrowConflict.solver 0 2⟩ := by
  have reachable : PgReachable pgNarrow.listing.provider () pgNarrow.rootPkg
      pgNarrow.rootVersion pgNarrow.roots ⟨.resolve 0, pgNarrowConflict.solver⟩ := by
    rw [← pgNarrowConflict_phase]
    exact ⟨pgNarrowStart, pgNarrow_started, reaches_iterate 17 pgNarrowStart⟩
  have budget : pgSolverBudgetCheck (pgBackjumped pgNarrowConflict.solver 0 2) = none := by
    decide
  have learned := Prod.ext_iff.mpr ⟨rfl, pgNarrowConflict_learned⟩
  exact (pgResolveConflict_backjump reachable learned pgNarrow_sound).2.1 budget

/-! ## A conflict that comes back -/

/-- Version 2 of package 1 needs packages 2 and 3 in versions that exclude each
other. -/
def pgLooping : PgProblem where
  listing := .ofTables [(1, [⟨2, 0, 0⟩, ⟨1, 0, 0⟩]), (2, [⟨1, 0, 0⟩]), (3, [⟨1, 0, 0⟩])]
    [((1, ⟨2, 0, 0⟩), [(2, pgRangeExact ⟨1, 0, 0⟩), (3, pgRangeExact ⟨1, 0, 0⟩)]),
      ((2, ⟨1, 0, 0⟩), [(3, pgRangeExact ⟨2, 0, 0⟩)])]
  rootPkg := 0
  rootVersion := ⟨1, 0, 0⟩
  roots := [(1, pgRangeAny)]

/-- The first configuration of its run. -/
def pgLoopingStart : PgConfig Unit :=
  pgSolverStart pgLooping.listing.provider
    (pgRootsPushed (pgSolverNew () pgLooping.rootPkg pgLooping.rootVersion) pgLooping.roots)

/-- The configuration of its run in which the conflict is resolved a second time. -/
def pgLoopingConflict : PgConfig Unit :=
  pgRun pgLooping.listing.provider 41 pgLoopingStart

/-- The configuration three steps after `pg_resolve_conflict` has stopped there. -/
def pgLoopingAgain : PgConfig Unit :=
  pgRun pgLooping.listing.provider 3 ⟨.loop, pgBackjumped pgLoopingConflict.solver 2 2⟩

theorem pgLooping_started : PgStart pgLooping.listing.provider () pgLooping.rootPkg
    pgLooping.rootVersion pgLooping.roots pgLoopingStart := ⟨_, rfl, rfl⟩

theorem pgLoopingConflict_phase : pgLoopingConflict.phase = .resolve 2 := by decide

/-- The satisfier is a derivation at the level of the previous satisfier, so that
backtracking to this level undoes nothing: the incompatibility stays satisfied, and
the same conflict is reported on the same trail again. -/
theorem pgResolveConflict_loops :
    PgReachable pgLooping.listing.provider () pgLooping.rootPkg pgLooping.rootVersion
        pgLooping.roots ⟨.resolve 2, pgLoopingConflict.solver⟩ ∧
      (pgResolveConflictIteration pgLoopingConflict.solver 2).2 = .learned 2 ∧
      (¬ ∃ term, PgUnit (pgBackjumped pgLoopingConflict.solver 2 2).trail
        ((pgBackjumped pgLoopingConflict.solver 2 2).terms 2) term) ∧
      Reaches (pgStep pgLooping.listing.provider)
        ⟨.loop, pgBackjumped pgLoopingConflict.solver 2 2⟩ pgLoopingAgain ∧
      pgLoopingAgain.phase = .resolve 2 ∧
      pgLoopingAgain.solver.trail = pgLoopingConflict.solver.trail := by
  have satisfied : ∀ t ∈ (pgBackjumped pgLoopingConflict.solver 2 2).terms 2,
      pgTermState (pgBackjumped pgLoopingConflict.solver 2 2).trail t = .satisfied := by
    decide
  have again : pgLoopingAgain.phase = .resolve 2 ∧
      pgLoopingAgain.solver.trail = pgLoopingConflict.solver.trail := by decide
  refine ⟨?_, by decide, ?_, reaches_iterate 3 _, again.1, again.2⟩
  · rw [← pgLoopingConflict_phase]
    exact ⟨pgLoopingStart, pgLooping_started, reaches_iterate 41 pgLoopingStart⟩
  · intro unit
    obtain ⟨term, pre, post, split, open_, -⟩ := unit
    have closed := satisfied term (by rw [split]; simp)
    rw [open_] at closed
    cases closed

end ElmWrap
