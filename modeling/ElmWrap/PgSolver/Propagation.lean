import Mathlib.Data.Set.Lattice
import Mathlib.Order.CompletePartialOrder
import ElmWrap.PgSolver.Shapes
import ElmWrap.PgSolver.TermMeaning

/-!
# Unit propagation ends

A derivation closes the term it negates: its state is not inconclusive any more,
and no term becomes inconclusive as the trail grows. The incompatibilities do not
change during unit propagation, so that the number of their inconclusive terms
bounds the derivations of one call.
-/

namespace ElmWrap

open Lib

variable {γ : Type} {P : PgDependencyProvider γ}

/-! ## Derived terms -/

/-- A term is decided once its negation has been derived. The range of a positive
term must be open, for the negation to overlap it. -/
theorem pgTermState_negated {trail : List PgAssignment} {term : PgTerm}
    (room : term.positive = true → term.range.Open) (id : PgIncompatId) (level : Nat) :
    pgTermState (trail ++ [pgAssignmentFromTermNegation term id level]) term ≠
      .inconclusive := by
  rw [pgTermState_eq, pgTermScan_append]
  cases positive : term.positive with
  | true =>
    obtain ⟨unflagged, apart⟩ := room positive
    have overlap : (pgRangeIntersect term.range term.range).isEmpty = false := by
      rw [Bool.eq_false_iff, ne_eq, (pgRangeIntersect_cuts unflagged unflagged).2.2]
      omega
    have scan : pgTermScanStep term (pgTermScan trail term)
        (pgAssignmentFromTermNegation term id level) =
          { pgTermScan trail term with hasNegative := true } := by
      simp [pgTermScanStep, pgAssignmentFromTermNegation, positive, overlap]
    rw [scan]
    cases (pgTermScan trail term).positiveRange with
    | none => simp
    | some range =>
      simp only [if_true, Bool.or_true]
      split <;> simp
  | false =>
    have scan : ∃ range, (pgTermScanStep term (pgTermScan trail term)
        (pgAssignmentFromTermNegation term id level)).positiveRange = some range ∧
        pgRangeSubset range term.range = true := by
      rw [pgTermScanStep_positiveRange, if_pos (by simp [pgAssignmentFromTermNegation, positive])]
      refine ⟨_, rfl, ?_⟩
      cases (pgTermScan trail term).positiveRange with
      | none => exact pgRangeSubset_refl _
      | some range => exact pgRangeSubset_intersect (Or.inr (pgRangeSubset_refl _))
    obtain ⟨range, scan, within⟩ := scan
    rw [scan]
    simp only [Bool.false_eq_true, if_false, within, if_true]
    split <;> simp

/-- The next step derives the negation of the term. -/
def PgDerivesTerm (c : PgConfig γ) (term : PgTerm) : Prop :=
  ∃ id rest t, c.phase = .examine (id :: rest) ∧
    pgExamineTerms c.solver.trail 0 none (c.solver.terms id) = .derive t ∧
    term = (c.solver.terms id).getD t pgNoTerm

theorem PgDerivesTerm.step {c : PgConfig γ} {term : PgTerm} (derives : PgDerivesTerm c term) :
    ∃ id rest, c.phase = .examine (id :: rest) ∧ PgUnit c.solver.trail (c.solver.terms id) term ∧
      pgStep P c = ⟨.examine rest, pgSolverPushAssignment c.solver
        (pgAssignmentFromTermNegation term id c.solver.currentDecisionLevel)⟩ := by
  obtain ⟨id, rest, t, phase, run, rfl⟩ := derives
  refine ⟨id, rest, phase, pgExamineTerms_derive run, ?_⟩
  unfold PgSolver.terms at run
  unfold pgStep
  rw [phase]
  simp only [run]
  rfl

/-! ## Counting inconclusive terms -/

theorem countP_lt {α : Type} {p q : α → Bool} {l : List α} (mono : ∀ x ∈ l, p x → q x)
    {x : α} (member : x ∈ l) (gained : q x = true) (lost : p x = false) :
    l.countP p < l.countP q := by
  obtain ⟨pre, post, rfl⟩ := List.append_of_mem member
  have left : pre.countP p ≤ pre.countP q :=
    List.countP_mono_left fun y on => mono y (by simp [on])
  have right : post.countP p ≤ post.countP q :=
    List.countP_mono_left fun y on => mono y (by simp [on])
  simp only [List.countP_append, List.countP_cons, gained, lost, if_true, Bool.false_eq_true,
    if_false]
  omega

/-- The number of inconclusive terms of the incompatibilities. -/
def pgOpenTerms (s : PgSolver γ) : Nat :=
  (s.incompatibilities.flatMap PgIncompatibility.terms).countP fun t =>
    pgTermState s.trail t = .inconclusive

theorem PgSolver.Tracked.mem_terms {s : PgSolver γ} {id : PgIncompatId} (tracked : s.Tracked id)
    {t : PgTerm} (member : t ∈ s.terms id) :
    t ∈ s.incompatibilities.flatMap PgIncompatibility.terms := by
  refine List.mem_flatMap.mpr ⟨s.incompat id, ?_, member⟩
  unfold PgSolver.Tracked at tracked
  rw [PgSolver.incompat, List.getD_eq_getElem?_getD, List.getElem?_eq_getElem tracked]
  exact List.getElem_mem tracked

/-- A derivation leaves fewer inconclusive terms. -/
theorem pgOpenTerms_derive {s : PgSolver γ} {id : PgIncompatId} {term : PgTerm}
    (tracked : s.Tracked id) (unit : PgUnit s.trail (s.terms id) term)
    (room : term.positive = true → term.range.Open) (level : Nat) :
    pgOpenTerms (pgSolverPushAssignment s (pgAssignmentFromTermNegation term id level)) <
      pgOpenTerms s := by
  have mentioned := tracked.mem_terms unit.mem
  obtain ⟨pre, post, -, open_, -⟩ := unit
  refine countP_lt (fun t _ later => ?_) mentioned (by simpa using open_) ?_
  · rw [decide_eq_true_eq] at later ⊢
    exact pgTermState_inconclusive_of_append later
  · rw [decide_eq_false_iff_not]
    exact pgTermState_negated room id level

/-! ## The loops of `pg_unit_propagate` -/

/-- The phases of `pg_unit_propagate`. -/
def PgPhase.unitPropagating : PgPhase → Bool
  | .propagate => true
  | .examine _ => true
  | _ => false

/-- `pg_unit_propagate` returns. -/
def PgReturns (P : PgDependencyProvider γ) (c : PgConfig γ) : Prop :=
  ∃ c', Guarded (pgStep P) (fun d => d.phase.unitPropagating = true) c c' ∧
    (c'.phase = .decide ∨ ∃ id, c'.phase = .resolve id)

theorem PgReturns.after_step {c : PgConfig γ} (propagating : c.phase.unitPropagating = true)
    (returns : PgReturns P (pgStep P c)) : PgReturns P c := by
  obtain ⟨c', run, outside⟩ := returns
  exact ⟨c', ((Guarded.refl c).next propagating).trans run, outside⟩

/-- What the loops need of a state. -/
structure PgPropagable (s : PgSolver γ) : Prop where
  watches : PgWatches s
  pinning : ∀ id, s.Tracked id → PgPinning (s.terms id)

theorem PgPinning.open {terms : List PgTerm} (pinning : PgPinning terms) {term : PgTerm}
    (member : term ∈ terms) (positive : term.positive = true) : term.range.Open := by
  obtain ⟨v, exact_⟩ := pinning term member positive
  rw [exact_]
  exact VersionRange.open_of_contains (pgRangeContains_exact.mpr rfl)

/-- The `for` loop returns if the `while` loop around it does, from this state
and from every state with fewer inconclusive terms. -/
theorem PgPropagable.examine {s : PgSolver γ} (ready : PgPropagable s)
    (fewer : ∀ s' : PgSolver γ, PgPropagable s' → pgOpenTerms s' < pgOpenTerms s →
      ∀ rest : List PgIncompatId, (∀ id ∈ rest, s'.Attached id) → PgReturns P ⟨.examine rest, s'⟩)
    (after : PgReturns P ⟨.propagate, s⟩) :
    ∀ rest : List PgIncompatId, (∀ id ∈ rest, s.Attached id) →
      PgReturns P ⟨.examine rest, s⟩ := by
  intro rest
  induction rest with
  | nil => exact fun _ => PgReturns.after_step rfl after
  | cons id rest ih =>
    intro attached
    have here : s.Attached id := attached id List.mem_cons_self
    have others : ∀ j ∈ rest, s.Attached j :=
      fun j member => attached j (List.mem_cons_of_mem _ member)
    apply PgReturns.after_step rfl
    cases run : pgExamineTerms s.trail 0 none (s.incompat id).terms with
    | conflict =>
      simp only [pgStep, run]
      exact ⟨_, Guarded.refl _, Or.inr ⟨id, rfl⟩⟩
    | skip =>
      simp only [pgStep, run]
      exact ih others
    | derive t =>
      simp only [pgStep, run]
      have unit : PgUnit s.trail (s.terms id) ((s.incompat id).terms.getD t pgNoTerm) :=
        pgExamineTerms_derive run
      have pushed : PgPropagable (pgSolverPushAssignment s (pgAssignmentFromTermNegation
          ((s.incompat id).terms.getD t pgNoTerm) id s.currentDecisionLevel)) :=
        ⟨ready.watches.of_eq rfl fun _ => rfl, ready.pinning⟩
      exact fewer _ pushed (pgOpenTerms_derive here.1 unit
        ((ready.pinning id here.1).open unit.mem) s.currentDecisionLevel) rest others

/-- Both loops return, by induction on the number of inconclusive terms; between
two derivations the stack of changed packages shrinks. -/
theorem PgPropagable.returns : ∀ (open_ : Nat) (s : PgSolver γ), pgOpenTerms s = open_ →
    PgPropagable s → PgReturns P ⟨.propagate, s⟩ ∧
      ∀ rest : List PgIncompatId, (∀ id ∈ rest, s.Attached id) →
        PgReturns P ⟨.examine rest, s⟩ := by
  intro open_
  induction open_ using Nat.strong_induction_on with
  | _ open_ fewer =>
    have popped : ∀ (changed : List PgPackageId) (s : PgSolver γ), s.changedPkgs = changed →
        pgOpenTerms s = open_ → PgPropagable s → PgReturns P ⟨.propagate, s⟩ := by
      intro changed
      induction changed with
      | nil =>
        intro s stack _ _
        apply PgReturns.after_step rfl
        simp only [pgStep, stack]
        exact ⟨_, Guarded.refl _, Or.inl rfl⟩
      | cons pkg changed ih =>
        intro s stack count ready
        apply PgReturns.after_step rfl
        simp only [pgStep, stack]
        have next : PgPropagable { s with changedPkgs := changed } :=
          ⟨ready.watches.of_eq rfl fun _ => rfl, ready.pinning⟩
        refine next.examine (fun s' ready' lt => ?_) (ih _ rfl count next) _ ?_
        · exact (fewer _ (lt.trans_eq count) s' rfl ready').2
        · intro id member
          exact ((ready.watches pkg id).mp (List.mem_reverse.mp member)).1
    intro s count ready
    have loop := popped s.changedPkgs s rfl count ready
    refine ⟨loop, ready.examine (fun s' ready' lt => ?_) loop⟩
    exact (fewer _ (lt.trans_eq count) s' rfl ready').2

/-! ## The runs of one call -/

theorem PgReachable.propagable {ctx : γ} {rootPkg : PgPackageId} {rootVersion : PgVersion}
    {roots : List PgDependency} {c : PgConfig γ}
    (reachable : PgReachable P ctx rootPkg rootVersion roots c)
    (propagating : c.phase.unitPropagating = true) : PgPropagable c.solver := by
  refine ⟨reachable.wellFormed.watches, ?_⟩
  rcases reachable.shapes.pinning with all | ⟨id, phase, -⟩ | ⟨status, phase⟩
  · exact all
  · rw [phase] at propagating
    cases propagating
  · rw [phase] at propagating
    cases propagating

theorem PgReachable.later {ctx : γ} {rootPkg : PgPackageId} {rootVersion : PgVersion}
    {roots : List PgDependency} {c d : PgConfig γ}
    (reachable : PgReachable P ctx rootPkg rootVersion roots c) {G : PgConfig γ → Prop}
    (run : Guarded (pgStep P) G c d) : PgReachable P ctx rootPkg rootVersion roots d := by
  obtain ⟨start, started, before⟩ := reachable
  exact ⟨start, started, before.trans run.reaches⟩

/-- Within a call the trail only grows. -/
theorem pgTrail_grows {c d : PgConfig γ}
    (run : Guarded (pgStep P) (fun e => e.phase.unitPropagating = true) c d) :
    c.solver.trail <+: d.solver.trail := by
  refine Guarded.invariant (I := fun e => c.solver.trail <+: e.solver.trail) run
    (List.prefix_refl _) fun e propagating grown => ?_
  have change := (pgStep_transition P e).trail
  generalize (pgStep P e).solver.trail = trail at change
  cases change with
  | same => exact grown
  | derived => exact grown.trans (List.prefix_append _ _)
  | decided => cases propagating
  | cut => cases propagating

/-- The derived term is closed. -/
theorem PgDerivesTerm.closes {ctx : γ} {rootPkg : PgPackageId} {rootVersion : PgVersion}
    {roots : List PgDependency} {c : PgConfig γ} {term : PgTerm}
    (reachable : PgReachable P ctx rootPkg rootVersion roots c) (derives : PgDerivesTerm c term) :
    pgTermState (pgStep P c).solver.trail term ≠ .inconclusive := by
  obtain ⟨id, rest, phase, unit, step⟩ := derives.step (P := P)
  have propagating : c.phase.unitPropagating = true := by rw [phase]; rfl
  have attached : c.solver.Attached id := by
    have refers := reachable.wellFormed.refers
    rw [phase] at refers
    exact refers id List.mem_cons_self
  rw [step]
  exact pgTermState_negated
    (((reachable.propagable propagating).pinning id attached.1).open unit.mem) id _

/-- Unit propagation returns from every reachable state. Each derivation turns
an inconclusive term into one that is not, and no other term into an
inconclusive one; no term is derived twice in a call. -/
theorem pgUnitPropagate_returns {ctx : γ} {rootPkg : PgPackageId} {rootVersion : PgVersion}
    {roots : List PgDependency} {c : PgConfig γ}
    (reachable : PgReachable P ctx rootPkg rootVersion roots c)
    (propagating : c.phase.unitPropagating = true) :
    PgReturns P c ∧
      ∀ d term, Guarded (pgStep P) (fun e => e.phase.unitPropagating = true) c d →
        PgDerivesTerm d term →
        (pgTermState d.solver.trail term = .inconclusive ∧
          pgTermState (pgStep P d).solver.trail term ≠ .inconclusive ∧
          ∀ other, pgTermState (pgStep P d).solver.trail other = .inconclusive →
            pgTermState d.solver.trail other = .inconclusive) ∧
        ∀ e again, Guarded (pgStep P) (fun e => e.phase.unitPropagating = true) (pgStep P d) e →
          PgDerivesTerm e again → again ≠ term := by
  have ready := reachable.propagable propagating
  refine ⟨?_, fun d term run derives => ?_⟩
  · obtain ⟨loop, examine⟩ := PgPropagable.returns (P := P) _ c.solver rfl ready
    have refers := reachable.wellFormed.refers
    rcases c with ⟨phase, s⟩
    cases phase with
    | propagate => exact loop
    | examine rest => exact examine rest refers
    | _ => cases propagating
  · have closed := derives.closes (reachable.later run)
    obtain ⟨id, rest, phase, unit, step⟩ := derives.step (P := P)
    obtain ⟨pre, post, -, open_, -⟩ := unit
    refine ⟨⟨open_, closed, fun other later => ?_⟩, fun e again rest' derives' same => ?_⟩
    · rw [step] at later
      exact pgTermState_inconclusive_of_append later
    · obtain ⟨id', rest'', phase', unit', -⟩ := derives'.step (P := P)
      obtain ⟨pre', post', -, open', -⟩ := unit'
      rw [same] at open'
      exact closed ((pgTermState_longer (pgTrail_grows rest')).2 open')

/-! ## A derivation that excludes no listed version -/

/-- The listed versions of a package that the trail allows. -/
def pgListedAllowed (L : PgListing) (trail : List PgAssignment) (pkg : PgPackageId) :
    Set PgVersion :=
  { v | (∃ vs, L.versions pkg = some vs ∧ v ∈ vs) ∧ PgAllowed trail pkg (some v) }

/-- The versions from 1.0.0 up to 1.5.0. -/
def pgTightenedRange : PgVersionRange where
  lower := { v := ⟨1, 0, 0⟩, inclusive := true, unbounded := false }
  upper := { v := ⟨1, 5, 0⟩, inclusive := false, unbounded := false }
  isEmpty := false

/-- Version 1.0.0 of package 2 is required below 2.0.0 and, by package 1, below
1.5.0. -/
def pgTightened : PgProblem where
  listing := .ofTables [(1, [⟨1, 0, 0⟩]), (2, [⟨1, 0, 0⟩])]
    [((1, ⟨1, 0, 0⟩), [(2, pgTightenedRange)])]
  rootPkg := 0
  rootVersion := ⟨1, 0, 0⟩
  roots := [(1, pgRangeAny), (2, pgRangeUntilNextMajor ⟨1, 0, 0⟩)]

/-- The first configuration of its run. -/
def pgTightenedStart : PgConfig Unit :=
  pgSolverStart pgTightened.listing.provider
    (pgRootsPushed (pgSolverNew () pgTightened.rootPkg pgTightened.rootVersion) pgTightened.roots)

/-- The configuration of its run that derives the tighter requirement. -/
def pgTightenedDerives : PgConfig Unit := pgRun pgTightened.listing.provider 11 pgTightenedStart

theorem pgTightenedDerives_reachable : PgReachable pgTightened.listing.provider ()
    pgTightened.rootPkg pgTightened.rootVersion pgTightened.roots pgTightenedDerives :=
  ⟨pgTightenedStart, ⟨_, rfl, rfl⟩, reaches_iterate 11 pgTightenedStart⟩

theorem pgUnitPropagate_returns_tightened :
    PgReturns pgTightened.listing.provider pgTightenedDerives :=
  (pgUnitPropagate_returns pgTightenedDerives_reachable (by decide)).1

/-- The derivation leaves the listed versions that are allowed as they are. -/
theorem pgUnitPropagate_shrinks_fails :
    ¬ ∀ c term, PgReachable pgTightened.listing.provider () pgTightened.rootPkg
        pgTightened.rootVersion pgTightened.roots c → PgDerivesTerm c term →
      ∃ pkg, pgListedAllowed pgTightened.listing
          (pgStep pgTightened.listing.provider c).solver.trail pkg ⊂
        pgListedAllowed pgTightened.listing c.solver.trail pkg := by
  intro claim
  have phase : pgTightenedDerives.phase = .examine [0] := by decide
  have run : pgExamineTerms pgTightenedDerives.solver.trail 0 none
      (pgTightenedDerives.solver.terms 0) = .derive 1 := by decide
  have derives : PgDerivesTerm pgTightenedDerives
      ((pgTightenedDerives.solver.terms 0).getD 1 pgNoTerm) := ⟨0, [], 1, phase, run, rfl⟩
  obtain ⟨pkg, -, strict⟩ := claim _ _ pgTightenedDerives_reachable derives
  obtain ⟨id, rest, -, -, step⟩ := derives.step (P := pgTightened.listing.provider)
  apply strict
  rintro v ⟨listed, allowed⟩
  refine ⟨listed, fun a member same => ?_⟩
  rw [step, push_trail] at member
  rcases List.mem_append.mp member with old | new
  · exact allowed a old same
  · have term : (pgTightenedDerives.solver.terms 0).getD 1 pgNoTerm =
        { pkg := 2, range := pgTightenedRange, positive := false } := by decide
    rw [List.mem_singleton.mp new, term] at same ⊢
    cases same
    obtain ⟨vs, versions, inside⟩ := listed
    cases versions
    rw [List.mem_singleton.mp inside]
    exact pgAdmits_positive.mpr ⟨⟨1, 0, 0⟩, rfl, rfl⟩

end ElmWrap
