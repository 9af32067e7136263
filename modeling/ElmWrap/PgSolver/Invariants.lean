import ElmWrap.PgSolver.Store

/-!
# Invariants of every run

What holds at every configuration of a run whatever the provider answers: the
watch lists point to the attached incompatibilities that mention their package,
every assignment on the trail is a root requirement, a decision or a derivation
from a tracked incompatibility, and the decision levels grow along the trail.
-/

namespace ElmWrap

open Lib

variable {γ : Type} {P : PgDependencyProvider γ}

/-! ## Examining an incompatibility -/

/-- All terms but one are satisfied and that one is undetermined. -/
def PgUnit (trail : List PgAssignment) (terms : List PgTerm) (term : PgTerm) : Prop :=
  ∃ pre post, terms = pre ++ term :: post ∧ pgTermState trail term = .inconclusive ∧
    ∀ t ∈ pre ++ post, pgTermState trail t = .satisfied

theorem PgUnit.mem {trail : List PgAssignment} {terms : List PgTerm} {term : PgTerm}
    (unit : PgUnit trail terms term) : term ∈ terms := by
  obtain ⟨pre, post, rfl, -, -⟩ := unit
  simp

theorem PgUnit.others {trail : List PgAssignment} {terms : List PgTerm} {term : PgTerm}
    (unit : PgUnit trail terms term) :
    ∀ t ∈ terms, t = term ∨ pgTermState trail t = .satisfied := by
  obtain ⟨pre, post, rfl, -, satisfied⟩ := unit
  intro t member
  rcases List.mem_append.mp member with left | right
  · exact Or.inr (satisfied t (List.mem_append_left _ left))
  · rcases List.mem_cons.mp right with same | right
    · exact Or.inl same
    · exact Or.inr (satisfied t (List.mem_append_right _ right))

theorem pgExamineTerms_cons (trail : List PgAssignment) (index : Nat) (seen : Option Nat)
    (term : PgTerm) (rest : List PgTerm) :
    pgExamineTerms trail index seen (term :: rest) =
      match pgTermState trail term with
      | .satisfied => pgExamineTerms trail (index + 1) seen rest
      | .contradicted => .skip
      | .inconclusive =>
        match seen with
        | none => pgExamineTerms trail (index + 1) (some index) rest
        | some _ => .skip := by
  cases seen <;> rfl

/-- The term loop, started with an inconclusive index or without one. -/
theorem pgExamineTerms_spec {trail : List PgAssignment} :
    ∀ (terms : List PgTerm) (index : Nat) (seen : Option Nat),
      (pgExamineTerms trail index seen terms = .conflict →
        seen = none ∧ ∀ t ∈ terms, pgTermState trail t = .satisfied) ∧
      (∀ i, pgExamineTerms trail index seen terms = .derive i →
        (seen = some i ∧ ∀ t ∈ terms, pgTermState trail t = .satisfied) ∨
          (seen = none ∧ ∃ pre term post, terms = pre ++ term :: post ∧
            i = index + pre.length ∧ pgTermState trail term = .inconclusive ∧
            ∀ t ∈ pre ++ post, pgTermState trail t = .satisfied)) := by
  intro terms
  induction terms with
  | nil =>
    intro index seen
    cases seen with
    | none => simp [pgExamineTerms]
    | some t => simp [pgExamineTerms]
  | cons term rest ih =>
    intro index seen
    rw [pgExamineTerms_cons]
    split
    · rename_i satisfied
      obtain ⟨conflict, derive⟩ := ih (index + 1) seen
      refine ⟨fun run => ?_, fun i run => ?_⟩
      · obtain ⟨none, all⟩ := conflict run
        exact ⟨none, List.forall_mem_cons.mpr ⟨satisfied, all⟩⟩
      · rcases derive i run with ⟨some, all⟩ | ⟨none, pre, u, post, same, i_eq, open_, all⟩
        · exact Or.inl ⟨some, List.forall_mem_cons.mpr ⟨satisfied, all⟩⟩
        · refine Or.inr ⟨none, term :: pre, u, post, by rw [same]; rfl, ?_, open_, ?_⟩
          · rw [i_eq, List.length_cons, Nat.add_assoc, Nat.add_comm 1]
          · exact List.forall_mem_cons.mpr ⟨satisfied, all⟩
    · simp
    · rename_i open_
      cases seen with
      | some t => simp
      | none =>
        obtain ⟨conflict, derive⟩ := ih (index + 1) (some index)
        refine ⟨fun run => ?_, fun i run => ?_⟩
        · cases (conflict run).1
        · rcases derive i run with ⟨some, all⟩ | ⟨none, -⟩
          · cases some
            exact Or.inr ⟨rfl, [], term, rest, rfl, rfl, open_, by simpa using all⟩
          · cases none

theorem pgExamineTerms_conflict {trail : List PgAssignment} {terms : List PgTerm}
    (run : pgExamineTerms trail 0 none terms = .conflict) :
    ∀ t ∈ terms, pgTermState trail t = .satisfied :=
  ((pgExamineTerms_spec terms 0 none).1 run).2

theorem pgExamineTerms_derive {trail : List PgAssignment} {terms : List PgTerm} {i : Nat}
    (run : pgExamineTerms trail 0 none terms = .derive i) :
    PgUnit trail terms (terms.getD i pgNoTerm) := by
  rcases (pgExamineTerms_spec terms 0 none).2 i run with ⟨h, -⟩ |
    ⟨-, pre, term, post, same, i_eq, open_, all⟩
  · cases h
  · have here : terms.getD i pgNoTerm = term := by
      subst same
      simp [i_eq, List.getD_eq_getElem?_getD]
    rw [here]
    exact ⟨pre, post, same, open_, all⟩

/-! ## How a step changes the trail -/

/-- The trails a step can leave. -/
inductive PgTrailChange (P : PgDependencyProvider γ) :
    PgConfig γ → List PgAssignment → Prop
  | same (c : PgConfig γ) : PgTrailChange P c c.solver.trail
  | derived {s : PgSolver γ} {id : PgIncompatId} {rest : List PgIncompatId} {term : PgTerm} :
    PgUnit s.trail (s.terms id) term →
    PgTrailChange P ⟨.examine (id :: rest), s⟩
      (s.trail ++ [pgAssignmentFromTermNegation term id s.currentDecisionLevel])
  | decided {s : PgSolver γ} {cv : List (Option (List PgVersion))} {pkg : PgPackageId}
      {version : PgVersion} :
    PgChoice P s cv pkg version →
    PgTrailChange P ⟨.decide, s⟩
      (s.trail ++ [pgDecisionAssignment pkg version (s.currentDecisionLevel + 1)])
  | cut {s : PgSolver γ} {current : PgIncompatId} {level : Nat} :
    PgResolveOutcome s current s (.learned level) → 1 ≤ level →
    PgTrailChange P ⟨.resolve current, s⟩ (pgTrailCut level s.trail)

theorem PgTransition.trail {c c' : PgConfig γ} (step : PgTransition P c c') :
    PgTrailChange P c c'.solver.trail := by
  cases step with
  | derive run => exact .derived (pgExamineTerms_derive run)
  | @decideError s s' outcome =>
    cases outcome with
    | stuck => exact .same ⟨.decide, s⟩
    | failed choice => exact .decided choice
  | @noVersions s s' id outcome =>
    cases outcome with
    | noVersions => simpa using PgTrailChange.same ⟨.decide, s⟩
  | @finished s s' outcome =>
    cases outcome with
    | nothing => exact .same ⟨.decide, s⟩
  | @decided s s' outcome =>
    cases outcome with
    | made choice =>
      simp only [pgAddDependencies_trail]
      exact .decided choice
  | @giveUp s s' current branch outcome =>
    cases outcome <;> exact .same ⟨.resolve current, s⟩
  | @resolved s s' current id outcome =>
    cases outcome
    exact .same ⟨.resolve current, s⟩
  | @learned s s' current level outcome =>
    have same : s' = s := by cases outcome; rfl
    have started : 1 ≤ level := by
      cases outcome with
      | learned _ _ _ high => exact Nat.le_of_not_lt high
    subst same
    simp only [backtrack_trail, attach_trail]
    exact .cut outcome started
  | _ => exact .same _

theorem PgTransition.root {c c' : PgConfig γ} (step : PgTransition P c c') :
    c'.solver.rootPkg = c.solver.rootPkg ∧ c'.solver.rootVersion = c.solver.rootVersion := by
  cases step with
  | decideError outcome => cases outcome <;> exact ⟨rfl, rfl⟩
  | noVersions outcome => cases outcome; simp
  | finished outcome => cases outcome; simp
  | decided outcome => cases outcome; simp [pgDecided]
  | giveUp outcome => cases outcome <;> exact ⟨rfl, rfl⟩
  | resolved outcome => cases outcome; exact ⟨rfl, rfl⟩
  | learned outcome => cases outcome; simp
  | _ => exact ⟨rfl, rfl⟩

/-- A step only fills the version cache. -/
theorem PgTransition.filled {c c' : PgConfig γ} (step : PgTransition P c c') :
    PgCacheFilled P c.solver c'.solver.cachedVersions := by
  cases step with
  | decideError outcome =>
    cases outcome with
    | stuck cv filled => exact filled
    | failed choice => exact choice.filled
  | noVersions outcome =>
    cases outcome with
    | noVersions filled => simpa using filled
  | finished outcome =>
    cases outcome with
    | nothing cv filled => exact filled
  | decided outcome =>
    cases outcome with
    | made choice =>
      simp only [pgAddDependencies_cachedVersions]
      exact choice.filled
  | giveUp outcome => cases outcome <;> exact PgCacheFilled.refl _
  | resolved outcome => cases outcome; exact PgCacheFilled.refl _
  | @learned s s' current level outcome =>
    cases outcome
    simpa using PgCacheFilled.refl s
  | _ => exact PgCacheFilled.refl _

/-! ## Well-formed configurations -/

/-- The assignment `pg_solver_add_root_dependency` pushes. -/
def pgRootAssignment (dep : PgDependency) : PgAssignment :=
  { pkg := dep.1, range := dep.2, positive := true, decided := false
    decisionLevel := 0, cause := none }

/-- What an assignment on the trail is: a root requirement, the root decision, a
decision of the search, or a derivation. -/
inductive PgEntry (roots : List PgDependency) (s : PgSolver γ) : PgAssignment → Prop
  | required {dep : PgDependency} : dep ∈ roots → PgEntry roots s (pgRootAssignment dep)
  | root : PgEntry roots s (pgDecisionAssignment s.rootPkg s.rootVersion 1)
  | decision {pkg : PgPackageId} {version : PgVersion} {level : Nat} :
    pkg ≠ s.rootPkg → 2 ≤ level → PgEntry roots s (pgDecisionAssignment pkg version level)
  | derived {id : PgIncompatId} {term : PgTerm} {level : Nat} :
    s.Attached id → term ∈ s.terms id → 1 ≤ level →
    PgEntry roots s (pgAssignmentFromTermNegation term id level)

theorem PgEntry.mono {roots : List PgDependency} {s s' : PgSolver γ} {a : PgAssignment}
    (entry : PgEntry roots s a) (extends_ : PgExtends s s')
    (root : s'.rootPkg = s.rootPkg ∧ s'.rootVersion = s.rootVersion) :
    PgEntry roots s' a := by
  cases entry with
  | required member => exact .required member
  | root => rw [← root.1, ← root.2]; exact .root
  | decision other level => exact .decision (by rwa [root.1]) level
  | derived attached member level =>
    exact .derived (extends_.attached attached) (by rwa [extends_.terms attached.1]) level

/-- The watch lists are those of the attached incompatibilities. -/
def PgWatches (s : PgSolver γ) : Prop :=
  ∀ pkg id, id ∈ s.pkgIncompatList pkg ↔ s.Attached id ∧ ∃ t ∈ s.terms id, t.pkg = pkg

/-- The incompatibilities a phase holds. -/
def PgPhase.Refers (s : PgSolver γ) : PgPhase → Prop
  | .examine rest => ∀ id ∈ rest, s.Attached id
  | .resolve current => s.Tracked current
  | _ => True

/-- The run has not returned. -/
def PgConfig.Live (c : PgConfig γ) : Prop := ∀ status, c.phase ≠ .done status

/-- Decision levels grow along the trail up to the current one. -/
structure PgLevels (s : PgSolver γ) : Prop where
  sorted : s.trail.Pairwise fun a b => a.decisionLevel ≤ b.decisionLevel
  bounded : ∀ a ∈ s.trail, a.decisionLevel ≤ s.currentDecisionLevel
  started : 1 ≤ s.currentDecisionLevel

structure PgWellFormed (roots : List PgDependency) (c : PgConfig γ) : Prop where
  watches : PgWatches c.solver
  entries : ∀ a ∈ c.solver.trail, PgEntry roots c.solver a
  refers : c.phase.Refers c.solver
  levels : c.Live → PgLevels c.solver

theorem PgWatches.of_eq {s s' : PgSolver γ} (watches : PgWatches s)
    (store : s'.incompatibilities = s.incompatibilities)
    (lists : ∀ pkg, s'.pkgIncompatList pkg = s.pkgIncompatList pkg) : PgWatches s' := by
  intro pkg id
  have spec := watches pkg id
  rw [lists]
  unfold PgSolver.Attached PgSolver.Tracked PgSolver.terms PgSolver.incompat at spec ⊢
  rwa [store]

theorem PgWatches.attach {s : PgSolver γ} (watches : PgWatches s) {id : PgIncompatId}
    (tracked : s.Tracked id) : PgWatches (pgSolverAttachIncompatibility s id) := by
  cases flag : (s.incompat id).attached with
  | true => rwa [attach_attached s id flag]
  | false =>
    intro pkg j
    rw [mem_attach_pkgIncompatList s id flag, watches pkg j, PgSolver.Attached,
      PgSolver.Attached, attach_attached_iff s id tracked, PgSolver.terms, PgSolver.terms,
      attach_terms, PgSolver.Tracked, PgSolver.Tracked, attach_length]
    constructor
    · rintro (⟨⟨lt, on⟩, mentions⟩ | ⟨rfl, mentions⟩)
      · exact ⟨⟨lt, Or.inr on⟩, mentions⟩
      · exact ⟨⟨tracked, Or.inl rfl⟩, mentions⟩
    · rintro ⟨⟨lt, rfl | on⟩, mentions⟩
      · exact Or.inr ⟨rfl, mentions⟩
      · exact Or.inl ⟨⟨lt, on⟩, mentions⟩

theorem PgWatches.track {s : PgSolver γ} (watches : PgWatches s) (terms : List PgTerm)
    (reason : PgIncompatibilityReason) (causes : List PgIncompatId) :
    PgWatches (pgSolverTrackIncompatibility s terms reason causes).1 := by
  intro pkg id
  rw [track_pkgIncompatList, watches pkg id]
  have extends_ := PgExtends.track s terms reason causes
  constructor
  · rintro ⟨attached, mentions⟩
    exact ⟨extends_.attached attached, by rwa [extends_.terms attached.1]⟩
  · rintro ⟨⟨stored, on⟩, mentions⟩
    rcases track_incompat_cases s terms reason causes stored with ⟨lt, same⟩ | ⟨-, new⟩
    · rw [PgSolver.terms, same] at mentions
      rw [same] at on
      exact ⟨⟨lt, on⟩, mentions⟩
    · rw [new] at on
      cases on

theorem PgWatches.add {s : PgSolver γ} (watches : PgWatches s) (terms : List PgTerm)
    (reason : PgIncompatibilityReason) :
    PgWatches (pgSolverAddIncompatibility s terms reason).1 := by
  rw [add_fst]
  exact (watches.track terms reason []).attach (by simp [PgSolver.Tracked])

theorem PgWatches.addDependencies {s : PgSolver γ} (watches : PgWatches s) (pkg : PgPackageId)
    (range : PgVersionRange) (deps : List PgDependency) :
    PgWatches (pgAddDependencies s pkg range deps) := by
  induction deps generalizing s with
  | nil => exact watches
  | cons dep deps ih =>
    rw [pgAddDependencies_cons]
    exact ih (watches.add _ _)

theorem PgTransition.watches {c c' : PgConfig γ} (step : PgTransition P c c')
    (watches : PgWatches c.solver) (refers : c.phase.Refers c.solver) :
    PgWatches c'.solver := by
  cases step with
  | decideError outcome => cases outcome <;> exact watches.of_eq rfl fun _ => rfl
  | @noVersions s s' id outcome =>
    have added : PgWatches s' := by
      cases outcome
      refine PgWatches.add ?_ _ _
      exact watches.of_eq rfl fun _ => rfl
    exact added.of_eq rfl fun _ => rfl
  | finished outcome => cases outcome; exact watches.of_eq rfl fun _ => rfl
  | @decided s s' outcome =>
    have added : PgWatches s' := by
      cases outcome
      refine PgWatches.addDependencies ?_ _ _ _
      exact watches.of_eq rfl fun _ => rfl
    exact added.of_eq rfl fun _ => rfl
  | giveUp outcome => cases outcome <;> exact watches.of_eq rfl fun _ => rfl
  | resolved outcome => cases outcome; exact watches.track _ _ _
  | learned outcome =>
    cases outcome
    exact (watches.attach refers).of_eq rfl fun _ => rfl
  | _ => exact watches.of_eq rfl fun _ => rfl

theorem PgTransition.refers {c c' : PgConfig γ} (step : PgTransition P c c')
    (watches : PgWatches c.solver) (refers : c.phase.Refers c.solver) :
    c'.phase.Refers c'.solver := by
  cases step with
  | pop changed =>
    intro id member
    exact ((watches _ id).mp (List.mem_reverse.mp member)).1
  | conflict => exact (refers _ List.mem_cons_self).1
  | skip => exact fun id member => refers id (List.mem_cons_of_mem _ member)
  | derive => exact fun id member => refers id (List.mem_cons_of_mem _ member)
  | noVersions outcome => cases outcome; simp [PgPhase.Refers, PgSolver.Tracked]
  | resolved outcome =>
    cases outcome
    simp [PgPhase.Refers, PgSolver.Tracked, pgIncompatibilityResolveWith]
  | _ => trivial

theorem PgLevels.of_eq {s s' : PgSolver γ} (levels : PgLevels s) (trail : s'.trail = s.trail)
    (current : s'.currentDecisionLevel = s.currentDecisionLevel) : PgLevels s' :=
  ⟨by rw [trail]; exact levels.sorted, by rw [trail, current]; exact levels.bounded,
    by rw [current]; exact levels.started⟩

/-- An assignment at the new current level extends the levels. -/
theorem PgLevels.snoc {s s' : PgSolver γ} {a : PgAssignment} (levels : PgLevels s)
    (trail : s'.trail = s.trail ++ [a]) (current : s'.currentDecisionLevel = a.decisionLevel)
    (up : s.currentDecisionLevel ≤ a.decisionLevel) : PgLevels s' := by
  refine ⟨?_, ?_, Nat.le_trans levels.started (current ▸ up)⟩
  · rw [trail, List.pairwise_append]
    refine ⟨levels.sorted, List.pairwise_singleton _ _, fun b hb c hc => ?_⟩
    rw [List.mem_singleton.mp hc]
    exact Nat.le_trans (levels.bounded b hb) up
  · intro b member
    rw [current]
    rw [trail] at member
    rcases List.mem_append.mp member with old | new
    · exact Nat.le_trans (levels.bounded b old) up
    · rw [List.mem_singleton.mp new]

/-- What is left of a sorted trail lies at or below the level it is cut to. -/
theorem level_le_of_mem_pgTrailCut {level : Nat} {trail : List PgAssignment}
    (sorted : trail.Pairwise fun a b => a.decisionLevel ≤ b.decisionLevel)
    {a : PgAssignment} (member : a ∈ pgTrailCut level trail) : a.decisionLevel ≤ level := by
  induction trail using List.reverseRecOn with
  | nil => cases member
  | append_singleton trail b ih =>
    rw [List.pairwise_append] at sorted
    rw [pgTrailCut, List.rdropWhile_concat] at member
    split at member
    · exact ih sorted.1 member
    · rename_i low
      have le : b.decisionLevel ≤ level := by simpa using low
      rcases List.mem_append.mp member with old | new
      · exact Nat.le_trans (sorted.2.2 a old b (List.mem_singleton_self b)) le
      · rw [List.mem_singleton.mp new]; exact le

theorem PgLevels.cut {s s' : PgSolver γ} {level : Nat} (levels : PgLevels s)
    (trail : s'.trail = pgTrailCut level s.trail) (current : s'.currentDecisionLevel = level)
    (started : 1 ≤ level) : PgLevels s' :=
  ⟨by rw [trail]; exact levels.sorted.sublist (pgTrailCut_initial level s.trail).sublist,
    by rw [trail, current]; exact fun a => level_le_of_mem_pgTrailCut levels.sorted,
    by rw [current]; exact started⟩

theorem PgTransition.levels {c c' : PgConfig γ} (step : PgTransition P c c')
    (levels : PgLevels c.solver) (live : c'.Live) : PgLevels c'.solver := by
  cases step with
  | derive => exact levels.snoc (push_trail _ _) rfl (Nat.le_refl _)
  | decideError => exact absurd rfl (live _)
  | noVersions outcome => cases outcome; exact levels.of_eq (by simp) (by simp)
  | finished => exact absurd rfl (live _)
  | decided outcome =>
    cases outcome
    exact levels.snoc (by simp only [pgAddDependencies_trail]; rfl)
      (by simp only [pgAddDependencies_currentDecisionLevel]; rfl) (Nat.le_succ _)
  | giveUp => exact absurd rfl (live _)
  | resolved outcome => cases outcome; exact levels.of_eq rfl rfl
  | learned outcome =>
    cases outcome with
    | learned _ _ _ high =>
      exact levels.cut (by simp) rfl (Nat.le_of_not_lt high)
  | _ => exact levels.of_eq rfl rfl

theorem PgTransition.live {c c' : PgConfig γ} (step : PgTransition P c c') (live : c'.Live) :
    c.Live := by
  cases step with
  | halted => exact live
  | _ => intro status same; cases same

theorem PgTransition.entries {roots : List PgDependency} {c c' : PgConfig γ}
    (step : PgTransition P c c') (well : PgWellFormed roots c) :
    ∀ a ∈ c'.solver.trail, PgEntry roots c'.solver a := by
  have extends_ : PgExtends c.solver c'.solver :=
    step.extends fun current phase => by have h := well.refers; rw [phase] at h; exact h
  have old : ∀ a ∈ c.solver.trail, PgEntry roots c'.solver a :=
    fun a member => (well.entries a member).mono extends_ step.root
  have change := step.trail
  generalize c'.solver.trail = trail at change
  intro a member
  cases change with
  | same => exact old a member
  | @derived s id rest term unit =>
    rcases List.mem_append.mp member with before | new
    · exact old a before
    · rw [List.mem_singleton.mp new]
      have attached : s.Attached id := well.refers id List.mem_cons_self
      have levels := well.levels (by intro status same; cases same)
      refine .derived (extends_.attached attached) ?_ levels.started
      rw [extends_.terms attached.1]
      exact unit.mem
  | @decided s cv pkg version choice =>
    rcases List.mem_append.mp member with before | new
    · exact old a before
    · rw [List.mem_singleton.mp new]
      have levels := well.levels (by intro status same; cases same)
      obtain ⟨required, candidate, -⟩ := choice.candidate
      exact .decision (by rw [step.root.1]; exact candidate.notRoot)
        (Nat.succ_le_succ levels.started)
  | cut => exact old a (mem_of_mem_pgTrailCut member)

theorem PgWellFormed.step {roots : List PgDependency} {c : PgConfig γ}
    (well : PgWellFormed roots c) : PgWellFormed roots (pgStep P c) where
  watches := (pgStep_transition P c).watches well.watches well.refers
  entries := (pgStep_transition P c).entries well
  refers := (pgStep_transition P c).refers well.watches well.refers
  levels live :=
    (pgStep_transition P c).levels (well.levels ((pgStep_transition P c).live live)) live

/-! ## The start of a run -/

/-- `c` starts a run: a new solver, its root requirements, `pg_solver_solve`. -/
def PgStart (P : PgDependencyProvider γ) (ctx : γ) (rootPkg : PgPackageId)
    (rootVersion : PgVersion) (roots : List PgDependency) (c : PgConfig γ) : Prop :=
  ∃ s, pgSolverAddRootDependencies (pgSolverNew ctx rootPkg rootVersion) roots = some s ∧
    c = pgSolverStart P s

/-- A configuration of a run. -/
def PgReachable (P : PgDependencyProvider γ) (ctx : γ) (rootPkg : PgPackageId)
    (rootVersion : PgVersion) (roots : List PgDependency) (c : PgConfig γ) : Prop :=
  ∃ start, PgStart P ctx rootPkg rootVersion roots start ∧ Reaches (pgStep P) start c

/-- The solver once its root requirements have been pushed. -/
def pgRootsPushed (s : PgSolver γ) (roots : List PgDependency) : PgSolver γ :=
  roots.foldl (fun s dep => pgSolverPushAssignment s (pgRootAssignment dep)) s

theorem pgSolverAddRootDependency_eq {s s' : PgSolver γ} {pkg : PgPackageId}
    {range : PgVersionRange} (run : pgSolverAddRootDependency s pkg range = some s') :
    s' = pgSolverPushAssignment s (pgRootAssignment (pkg, range)) := by
  simp only [pgSolverAddRootDependency] at run
  split at run
  · cases run
  · split at run
    · cases run
    · cases run; rfl
  · cases run; rfl

theorem pgSolverAddRootDependencies_eq {s s' : PgSolver γ} {roots : List PgDependency}
    (run : pgSolverAddRootDependencies s roots = some s') : s' = pgRootsPushed s roots := by
  induction roots generalizing s with
  | nil => cases run; rfl
  | cons dep roots ih =>
    simp only [pgSolverAddRootDependencies] at run
    split at run
    · cases run
    · rename_i s₁ first
      rw [ih run, pgSolverAddRootDependency_eq first]
      rfl

/-- What pushing the root requirements leaves. -/
theorem pgRootsPushed_frame (s : PgSolver γ) (roots : List PgDependency) :
    let s' := pgRootsPushed s roots
    s'.trail = s.trail ++ roots.map pgRootAssignment ∧
      s'.incompatibilities = s.incompatibilities ∧ s'.pkgIncompatLists = s.pkgIncompatLists ∧
      s'.providerCtx = s.providerCtx ∧ s'.rootPkg = s.rootPkg ∧
      s'.rootVersion = s.rootVersion ∧ s'.cachedVersions = s.cachedVersions ∧
      s'.solved = s.solved := by
  induction roots generalizing s with
  | nil => simp [pgRootsPushed]
  | cons dep roots ih =>
    have rest := ih (pgSolverPushAssignment s (pgRootAssignment dep))
    simp only [push_trail, List.append_assoc] at rest
    exact rest

/-- The state in which the root has been decided. -/
def pgRootDecided (ctx : γ) (rootPkg : PgPackageId) (rootVersion : PgVersion)
    (roots : List PgDependency) : PgSolver γ :=
  pgSolverPushAssignment (pgRootsPushed (pgSolverNew ctx rootPkg rootVersion) roots)
    (pgDecisionAssignment rootPkg rootVersion 1)

/-- The two ways a run can start: the provider fails on the root, or the root's
dependencies are registered. -/
inductive PgStarted (P : PgDependencyProvider γ) (ctx : γ) (rootPkg : PgPackageId)
    (rootVersion : PgVersion) (roots : List PgDependency) : PgConfig γ → Prop
  | failed {ctx' : γ} :
    (P.getDependencies ctx rootPkg rootVersion pgDependencyBuffer).1 = ctx' →
    PgStarted P ctx rootPkg rootVersion roots ⟨.done .internalError,
      { pgRootDecided ctx rootPkg rootVersion roots with providerCtx := ctx' }⟩
  | registered {ctx' : γ} {deps : List PgDependency} :
    P.getDependencies ctx rootPkg rootVersion pgDependencyBuffer = (ctx', some deps) →
    PgStarted P ctx rootPkg rootVersion roots ⟨.loop,
      { pgAddDependencies { pgRootDecided ctx rootPkg rootVersion roots with providerCtx := ctx' }
          rootPkg (pgRangeExact rootVersion) deps with currentDecisionLevel := 1 }⟩

theorem PgStart.started {ctx : γ} {rootPkg : PgPackageId} {rootVersion : PgVersion}
    {roots : List PgDependency} {c : PgConfig γ}
    (start : PgStart P ctx rootPkg rootVersion roots c) :
    PgStarted P ctx rootPkg rootVersion roots c := by
  obtain ⟨s, run, rfl⟩ := start
  have pushed := pgSolverAddRootDependencies_eq run
  subst pushed
  have frame := pgRootsPushed_frame (pgSolverNew ctx rootPkg rootVersion) roots
  have ctx_eq : (pgRootsPushed (pgSolverNew ctx rootPkg rootVersion) roots).providerCtx = ctx :=
    frame.2.2.2.1
  have pkg_eq : (pgRootsPushed (pgSolverNew ctx rootPkg rootVersion) roots).rootPkg = rootPkg :=
    frame.2.2.2.2.1
  have version_eq :
      (pgRootsPushed (pgSolverNew ctx rootPkg rootVersion) roots).rootVersion = rootVersion :=
    frame.2.2.2.2.2.1
  have unsolved : (pgRootsPushed (pgSolverNew ctx rootPkg rootVersion) roots).solved = false :=
    frame.2.2.2.2.2.2.2
  simp only [pgSolverStart, unsolved, Bool.false_eq_true, if_false, push_rootPkg,
    push_rootVersion, pkg_eq, version_eq]
  split
  · rename_i s₂ registered
    obtain ⟨ctx', answer, ⟨-, same⟩ | ⟨_, h, -⟩⟩ := pgSolverRegisterDependencies_spec registered
    · rw [same]
      rw [push_providerCtx, ctx_eq] at answer
      exact .failed answer
    · cases h
  · rename_i s₂ registered
    obtain ⟨ctx', -, ⟨h, -⟩ | ⟨deps, -, answer, same⟩⟩ :=
      pgSolverRegisterDependencies_spec registered
    · cases h
    · rw [same]
      rw [push_providerCtx, ctx_eq] at answer
      exact .registered answer

theorem pgRootDecided_trail (ctx : γ) (rootPkg : PgPackageId) (rootVersion : PgVersion)
    (roots : List PgDependency) :
    (pgRootDecided ctx rootPkg rootVersion roots).trail =
      roots.map pgRootAssignment ++ [pgDecisionAssignment rootPkg rootVersion 1] := by
  rw [pgRootDecided, push_trail, (pgRootsPushed_frame _ roots).1]
  rfl

theorem pgRootDecided_incompatibilities (ctx : γ) (rootPkg : PgPackageId)
    (rootVersion : PgVersion) (roots : List PgDependency) :
    (pgRootDecided ctx rootPkg rootVersion roots).incompatibilities = [] := by
  rw [pgRootDecided, push_incompatibilities, (pgRootsPushed_frame _ roots).2.1]
  rfl

theorem pgRootDecided_root (ctx : γ) (rootPkg : PgPackageId) (rootVersion : PgVersion)
    (roots : List PgDependency) :
    (pgRootDecided ctx rootPkg rootVersion roots).rootPkg = rootPkg ∧
      (pgRootDecided ctx rootPkg rootVersion roots).rootVersion = rootVersion := by
  have frame := pgRootsPushed_frame (pgSolverNew ctx rootPkg rootVersion) roots
  exact ⟨frame.2.2.2.2.1, frame.2.2.2.2.2.1⟩

theorem pgRootDecided_lists (ctx : γ) (rootPkg : PgPackageId) (rootVersion : PgVersion)
    (roots : List PgDependency) (pkg : PgPackageId) :
    (pgRootDecided ctx rootPkg rootVersion roots).pkgIncompatList pkg = [] := by
  rw [pgRootDecided, push_pkgIncompatList, PgSolver.pkgIncompatList,
    (pgRootsPushed_frame _ roots).2.2.1]
  rfl

theorem pgRootDecided_cached (ctx : γ) (rootPkg : PgPackageId) (rootVersion : PgVersion)
    (roots : List PgDependency) (pkg : PgPackageId) :
    (pgRootDecided ctx rootPkg rootVersion roots).cached pkg = none := by
  rw [PgSolver.cached, pgRootDecided, push_cachedVersions,
    (pgRootsPushed_frame _ roots).2.2.2.2.2.2.1]
  rfl

theorem pgRootDecided_untracked (ctx : γ) (rootPkg : PgPackageId) (rootVersion : PgVersion)
    (roots : List PgDependency) (id : PgIncompatId) :
    ¬ (pgRootDecided ctx rootPkg rootVersion roots).Tracked id := by
  rw [PgSolver.Tracked, pgRootDecided_incompatibilities]
  exact Nat.not_lt_zero id

theorem pgRootDecided_watches (ctx : γ) (rootPkg : PgPackageId) (rootVersion : PgVersion)
    (roots : List PgDependency) : PgWatches (pgRootDecided ctx rootPkg rootVersion roots) := by
  intro pkg id
  rw [pgRootDecided_lists]
  constructor
  · intro member
    cases member
  · rintro ⟨⟨tracked, -⟩, -⟩
    exact absurd tracked (pgRootDecided_untracked ctx rootPkg rootVersion roots id)

theorem pgRootDecided_entries (ctx : γ) {rootPkg : PgPackageId} {rootVersion : PgVersion}
    {roots : List PgDependency} {s : PgSolver γ}
    (root : s.rootPkg = rootPkg ∧ s.rootVersion = rootVersion)
    (trail : s.trail = (pgRootDecided ctx rootPkg rootVersion roots).trail) :
    ∀ a ∈ s.trail, PgEntry roots s a := by
  intro a member
  rw [trail, pgRootDecided_trail] at member
  rcases List.mem_append.mp member with required | decided
  · obtain ⟨dep, listed, rfl⟩ := List.mem_map.mp required
    exact .required listed
  · rw [List.mem_singleton.mp decided, ← root.1, ← root.2]
    exact .root

theorem PgWellFormed.start {ctx : γ} {rootPkg : PgPackageId} {rootVersion : PgVersion}
    {roots : List PgDependency} {c : PgConfig γ}
    (started : PgStarted P ctx rootPkg rootVersion roots c) : PgWellFormed roots c := by
  have watches := pgRootDecided_watches ctx rootPkg rootVersion roots
  have root := pgRootDecided_root ctx rootPkg rootVersion roots
  have trail := pgRootDecided_trail ctx rootPkg rootVersion roots
  cases started with
  | failed =>
    refine ⟨watches.of_eq rfl fun _ => rfl, pgRootDecided_entries ctx root rfl, trivial,
      fun live => absurd rfl (live _)⟩
  | @registered ctx' deps answer =>
    refine ⟨?_, pgRootDecided_entries ctx (by simpa using root) (by simp), trivial,
      fun _ => ?_⟩
    · have added : PgWatches (pgAddDependencies
          { pgRootDecided ctx rootPkg rootVersion roots with providerCtx := ctx' }
          rootPkg (pgRangeExact rootVersion) deps) := by
        refine PgWatches.addDependencies ?_ _ _ _
        exact watches.of_eq rfl fun _ => rfl
      exact added.of_eq rfl fun _ => rfl
    · refine ⟨?_, ?_, Nat.le_refl 1⟩
      · simp only [pgAddDependencies_trail, trail, List.pairwise_append]
        refine ⟨?_, List.pairwise_singleton _ _, ?_⟩
        · exact List.pairwise_map.mpr (List.pairwise_of_forall fun _ _ => Nat.le_refl 0)
        · intro a member b _
          obtain ⟨dep, -, rfl⟩ := List.mem_map.mp member
          exact Nat.zero_le _
      · intro a member
        simp only [pgAddDependencies_trail, trail] at member
        rcases List.mem_append.mp member with required | decided
        · obtain ⟨dep, -, rfl⟩ := List.mem_map.mp required
          exact Nat.zero_le 1
        · rw [List.mem_singleton.mp decided]
          exact Nat.le_refl 1

/-- Every configuration of a run is well formed. -/
theorem PgReachable.wellFormed {ctx : γ} {rootPkg : PgPackageId} {rootVersion : PgVersion}
    {roots : List PgDependency} {c : PgConfig γ}
    (reachable : PgReachable P ctx rootPkg rootVersion roots c) : PgWellFormed roots c := by
  obtain ⟨start, started, run⟩ := reachable
  exact Reaches.invariant run (PgWellFormed.start started.started) fun _ well => well.step

end ElmWrap
