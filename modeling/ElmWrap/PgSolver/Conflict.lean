import ElmWrap.PgSolver.Invariants
import ElmWrap.PgSolver.TermState

/-!
# What conflict resolution works on

The search for a satisfier, and two invariants of every run: the incompatibility
under resolution is satisfied by the trail, and a derivation was made on a trail
that satisfied its cause on every other package.
-/

namespace ElmWrap

open Lib

variable {γ : Type} {P : PgDependencyProvider γ}

/-! ## The satisfier -/

/-- What `satisfier_index[t]` holds once the loop has passed `trail`. -/
def pgFoundIn (trail : List PgAssignment) (terms : List PgTerm) : List (Option Nat) :=
  terms.map fun term => trail.findIdx? fun a => pgAssignmentSatisfiesTerm a term

theorem pgFoundIn_snoc (trail : List PgAssignment) (a : PgAssignment) (terms : List PgTerm) :
    List.zipWith (pgMarkSatisfied a trail.length) terms (pgFoundIn trail terms) =
      pgFoundIn (trail ++ [a]) terms := by
  induction terms with
  | nil => rfl
  | cons term terms ih =>
    rw [pgFoundIn, pgFoundIn, List.map_cons, List.map_cons, List.zipWith_cons_cons]
    refine congrArg₂ List.cons ?_ ih
    rw [List.findIdx?_append]
    cases trail.findIdx? fun b => pgAssignmentSatisfiesTerm b term with
    | some i => rfl
    | none =>
      cases flag : pgAssignmentSatisfiesTerm a term <;>
        simp [pgMarkSatisfied, List.findIdx?_cons, flag]

theorem pgFoundIn_incomplete {trail : List PgAssignment} {terms : List PgTerm}
    (incomplete : ¬ (pgFoundIn trail terms).all Option.isSome = true) :
    ∃ t ∈ terms, ∀ b ∈ trail, pgAssignmentSatisfiesTerm b t = false := by
  by_contra none
  refine incomplete (List.all_eq_true.mpr fun found on => ?_)
  obtain ⟨t, member, rfl⟩ := List.mem_map.mp on
  by_contra absent
  refine none ⟨t, member, ?_⟩
  rw [Bool.not_eq_true, Option.isSome_eq_false_iff, Option.isNone_iff_eq_none] at absent
  exact List.findIdx?_eq_none_iff.mp absent

/-- What it means that the satisfier search returns an assignment and a term: the
assignment is the first to satisfy the term, and up to it every term has been
satisfied by some assignment on its own. -/
structure PgSatisfies (trail : List PgAssignment) (terms : List PgTerm) (index termIndex : Nat)
    (pre : List PgAssignment) (a : PgAssignment) (post : List PgAssignment) (term : PgTerm) :
    Prop where
  split : trail = pre ++ a :: post
  index_eq : index = pre.length
  term_at : terms[termIndex]? = some term
  satisfies : pgAssignmentSatisfiesTerm a term = true
  first : ∀ b ∈ pre, pgAssignmentSatisfiesTerm b term = false
  covered : ∀ t ∈ terms, ∃ b ∈ pre ++ [a], pgAssignmentSatisfiesTerm b t = true

theorem pgFindSatisfierFrom_spec {terms : List PgTerm} {index termIndex : Nat} :
    ∀ (rest pre : List PgAssignment),
      (∃ t ∈ terms, ∀ b ∈ pre, pgAssignmentSatisfiesTerm b t = false) →
      pgFindSatisfierFrom terms rest pre.length (pgFoundIn pre terms) = some (index, termIndex) →
      ∃ before a after term,
        PgSatisfies (pre ++ rest) terms index termIndex before a after term := by
  intro rest
  induction rest with
  | nil => intro pre _ run; cases run
  | cons a rest ih =>
    intro pre missing run
    rw [pgFindSatisfierFrom, pgFoundIn_snoc] at run
    split at run
    · rename_i all
      cases run
      have covered : ∀ t ∈ terms, ∃ b ∈ pre ++ [a], pgAssignmentSatisfiesTerm b t = true := by
        intro t member
        have found := List.all_eq_true.mp all _ (List.mem_map.mpr ⟨t, member, rfl⟩)
        obtain ⟨i, at_⟩ := Option.isSome_iff_exists.mp found
        obtain ⟨lt, holds, -⟩ := List.findIdx?_eq_some_iff_getElem.mp at_
        exact ⟨_, List.getElem_mem lt, holds⟩
      -- the term that was missing before is found at this assignment
      have here : ∃ t ∈ pgFoundIn (pre ++ [a]) terms, (t == some pre.length) = true := by
        obtain ⟨t, member, unmet⟩ := missing
        refine ⟨_, List.mem_map.mpr ⟨t, member, rfl⟩, ?_⟩
        have before : pre.findIdx? (fun b => pgAssignmentSatisfiesTerm b t) = none :=
          List.findIdx?_eq_none_iff.mpr unmet
        obtain ⟨b, on, holds⟩ := covered t member
        have holds' : pgAssignmentSatisfiesTerm a t = true := by
          rcases List.mem_append.mp on with old | new
          · rw [unmet b old] at holds; cases holds
          · rw [← List.mem_singleton.mp new]; exact holds
        rw [List.findIdx?_append, before]
        simp [List.findIdx?_cons, holds']
      have at_ := List.findIdx?_eq_some_of_exists here
      rw [at_, Option.getD_some]
      obtain ⟨lt, equal, -⟩ := List.findIdx?_eq_some_iff_getElem.mp at_
      obtain ⟨lt', -⟩ : ∃ _ : List.findIdx (· == some pre.length)
          (pgFoundIn (pre ++ [a]) terms) < terms.length, True :=
        ⟨by simpa [pgFoundIn] using lt, trivial⟩
      have index_eq := beq_iff_eq.mp equal
      simp only [pgFoundIn, List.getElem_map] at index_eq
      obtain ⟨lt'', holds, first⟩ := List.findIdx?_eq_some_iff_getElem.mp index_eq
      refine ⟨pre, a, rest, _, rfl, rfl, List.getElem?_eq_getElem lt', ?_, ?_, covered⟩
      · rw [show (pre ++ [a])[pre.length] = a by simp] at holds
        exact holds
      · intro b member
        obtain ⟨j, lt, rfl⟩ := List.mem_iff_getElem.mp member
        have earlier := first j lt
        rw [List.getElem_append_left lt] at earlier
        exact Bool.eq_false_iff.mpr earlier
    · rename_i incomplete
      have missing' := pgFoundIn_incomplete incomplete
      rw [show pre.length + 1 = (pre ++ [a]).length by simp] at run
      obtain ⟨before, b, after, term, spec⟩ := ih (pre ++ [a]) missing' run
      exact ⟨before, b, after, term, { spec with split := by rw [← spec.split]; simp }⟩

theorem pgIncompatibilityFindSatisfier_spec {trail : List PgAssignment} {terms : List PgTerm}
    {index termIndex : Nat}
    (run : pgIncompatibilityFindSatisfier trail terms = some (index, termIndex)) :
    ∃ pre a post term, PgSatisfies trail terms index termIndex pre a post term := by
  unfold pgIncompatibilityFindSatisfier at run
  split at run
  · cases run
  · rename_i nonempty
    refine pgFindSatisfierFrom_spec trail [] ?_ run
    cases terms with
    | nil => simp at nonempty
    | cons term terms => exact ⟨term, List.mem_cons_self, by simp⟩

/-- The satisfier an iteration of `pg_resolve_conflict` finds. -/
theorem PgSatisfierAt.spec {s : PgSolver γ} {current : PgIncompatId} {index termIndex : Nat}
    {satisfier : PgAssignment} {term : PgTerm}
    (at_ : PgSatisfierAt s current index termIndex satisfier term) :
    ∃ pre post, PgSatisfies s.trail (s.terms current) index termIndex pre satisfier post term := by
  obtain ⟨pre, a, post, t, spec⟩ := pgIncompatibilityFindSatisfier_spec at_.found
  have assignment : satisfier = a := by
    rw [at_.satisfier_eq, spec.split, spec.index_eq]
    simp [List.getD_eq_getElem?_getD]
  have term_eq : term = t := by
    have here := spec.term_at
    rw [at_.term_eq, List.getD_eq_getElem?_getD, here, Option.getD_some]
  subst assignment term_eq
  exact ⟨pre, post, spec⟩

theorem PgSatisfies.member {trail : List PgAssignment} {terms : List PgTerm}
    {index termIndex : Nat} {pre post : List PgAssignment} {a : PgAssignment} {term : PgTerm}
    (spec : PgSatisfies trail terms index termIndex pre a post term) : a ∈ trail := by
  rw [spec.split]
  simp

theorem pgAssignmentSatisfiesTerm_pkg {a : PgAssignment} {term : PgTerm}
    (satisfies : pgAssignmentSatisfiesTerm a term = true) : a.pkg = term.pkg := by
  by_contra other
  simp [pgAssignmentSatisfiesTerm, other] at satisfies

/-- Every term is satisfied by an assignment no later, hence at no higher level,
than the satisfier. -/
theorem PgSatisfies.low {trail : List PgAssignment} {terms : List PgTerm}
    {index termIndex : Nat} {pre post : List PgAssignment} {a : PgAssignment} {term : PgTerm}
    (spec : PgSatisfies trail terms index termIndex pre a post term)
    (sorted : trail.Pairwise fun a b => a.decisionLevel ≤ b.decisionLevel) :
    ∀ t ∈ terms, ∃ b ∈ trail, b.decisionLevel ≤ a.decisionLevel ∧
      pgAssignmentSatisfiesTerm b t = true := by
  intro t member
  obtain ⟨b, on, satisfies⟩ := spec.covered t member
  rw [spec.split] at sorted ⊢
  rcases List.mem_append.mp on with old | new
  · exact ⟨b, List.mem_append_left _ old,
      (List.pairwise_append.mp sorted).2.2 b old a List.mem_cons_self, satisfies⟩
  · rw [List.mem_singleton.mp new] at satisfies
    exact ⟨a, by simp, Nat.le_refl _, satisfies⟩

/-! ## Derivations are justified -/

/-- A property that relates every derivation on the trail to the assignments
before it and to the terms of its cause. -/
def PgDerivations (rel : List PgAssignment → PgAssignment → List PgTerm → Prop)
    (s : PgSolver γ) : Prop :=
  ∀ pre a post, s.trail = pre ++ a :: post → ∀ id, a.cause = some id →
    s.Tracked id ∧ rel pre a (s.terms id)

section Derivations

variable {rel : List PgAssignment → PgAssignment → List PgTerm → Prop}

theorem PgDerivations.extend {s s' : PgSolver γ} (holds : PgDerivations rel s)
    (extends_ : PgExtends s s') (rest : List PgAssignment) (trail : s.trail = s'.trail ++ rest) :
    PgDerivations rel s' := by
  intro pre a post split id cause
  obtain ⟨tracked, related⟩ := holds pre a (post ++ rest) (by rw [trail, split]; simp) id cause
  exact ⟨extends_.tracked tracked, by rwa [extends_.terms tracked]⟩

theorem PgDerivations.snoc {s s' : PgSolver γ} (holds : PgDerivations rel s)
    (extends_ : PgExtends s s') {b : PgAssignment} (trail : s'.trail = s.trail ++ [b])
    (new : ∀ id, b.cause = some id → s.Tracked id ∧ rel s.trail b (s.terms id)) :
    PgDerivations rel s' := by
  intro pre a post split id cause
  rw [trail] at split
  rcases List.eq_nil_or_concat' post with rfl | ⟨post, last, rfl⟩
  · obtain ⟨rfl, same⟩ := List.append_inj' split rfl
    cases same
    obtain ⟨tracked, related⟩ := new id cause
    exact ⟨extends_.tracked tracked, by rwa [extends_.terms tracked]⟩
  · rw [← List.cons_append, ← List.append_assoc] at split
    obtain ⟨old, -⟩ := List.append_inj' split rfl
    obtain ⟨tracked, related⟩ := holds pre a post old id cause
    exact ⟨extends_.tracked tracked, by rwa [extends_.terms tracked]⟩

/-- What unit propagation establishes for a derivation holds of all of them. -/
theorem PgTransition.derivations {roots : List PgDependency} {c c' : PgConfig γ}
    (step : PgTransition P c c') (well : PgWellFormed roots c)
    (unit : ∀ trail terms term id level, PgUnit trail terms term →
      rel trail (pgAssignmentFromTermNegation term id level) terms)
    (holds : PgDerivations rel c.solver) : PgDerivations rel c'.solver := by
  have extends_ : PgExtends c.solver c'.solver :=
    step.extends fun current phase => by have h := well.refers; rw [phase] at h; exact h
  have change := step.trail
  generalize trail_eq : c'.solver.trail = trail at change
  cases change with
  | same => exact holds.extend extends_ [] (by rw [trail_eq]; simp)
  | @derived s id rest term derived =>
    refine holds.snoc extends_ trail_eq fun j cause => ?_
    cases cause
    exact ⟨(well.refers id List.mem_cons_self).1, unit _ _ _ _ _ derived⟩
  | @decided s cv pkg version choice =>
    exact holds.snoc extends_ trail_eq fun j cause => by cases cause
  | @cut s current level outcome =>
    obtain ⟨rest, split⟩ := pgTrailCut_initial level s.trail
    exact holds.extend extends_ rest (by rw [trail_eq, split])

theorem PgDerivations.start {ctx : γ} {rootPkg : PgPackageId} {rootVersion : PgVersion}
    {roots : List PgDependency} {c : PgConfig γ}
    (started : PgStarted P ctx rootPkg rootVersion roots c) : PgDerivations rel c.solver := by
  intro pre a post split id cause
  exfalso
  have causeless : ∀ a ∈ c.solver.trail, a.cause = none := by
    have trail : c.solver.trail = (pgRootDecided ctx rootPkg rootVersion roots).trail := by
      cases started <;> simp
    rw [trail, pgRootDecided_trail]
    intro a member
    rcases List.mem_append.mp member with required | decided
    · obtain ⟨dep, -, rfl⟩ := List.mem_map.mp required
      rfl
    · rw [List.mem_singleton.mp decided]
      rfl
  rw [causeless a (by rw [split]; simp)] at cause
  cases cause

end Derivations

/-- A derivation was made on a trail that satisfied its cause on every other
package. -/
def PgJustified (s : PgSolver γ) : Prop :=
  ∀ pre a post, s.trail = pre ++ a :: post → ∀ id, a.cause = some id →
    s.Tracked id ∧ ∀ t ∈ s.terms id, t.pkg ≠ a.pkg → pgTermState pre t = .satisfied

theorem PgTransition.justified {roots : List PgDependency} {c c' : PgConfig γ}
    (step : PgTransition P c c') (well : PgWellFormed roots c)
    (justified : PgJustified c.solver) : PgJustified c'.solver := by
  have holds : PgDerivations (fun pre a terms =>
      ∀ t ∈ terms, t.pkg ≠ a.pkg → pgTermState pre t = .satisfied) c'.solver := by
    refine step.derivations well ?_ justified
    intro trail terms term id level unit t member other
    rcases unit.others t member with rfl | satisfied
    · exact absurd rfl other
    · exact satisfied
  exact holds

theorem PgJustified.start {ctx : γ} {rootPkg : PgPackageId} {rootVersion : PgVersion}
    {roots : List PgDependency} {c : PgConfig γ}
    (started : PgStarted P ctx rootPkg rootVersion roots c) : PgJustified c.solver := by
  have holds : PgDerivations (fun pre a terms =>
      ∀ t ∈ terms, t.pkg ≠ a.pkg → pgTermState pre t = .satisfied) c.solver :=
    PgDerivations.start started
  exact holds

/-! ## The incompatibility under resolution -/

/-- The terms of the incompatibility that a resolution tracks. -/
theorem pgResolveWith_terms (s : PgSolver γ) (left right : PgIncompatId) (pkg : PgPackageId) :
    (pgIncompatibilityResolveWith s left right pkg).1.terms s.incompatibilities.length =
      pgResolveTerms (s.terms left) (s.terms right) pkg := by
  rw [PgSolver.terms, pgIncompatibilityResolveWith, track_incompat_new]
  rfl

/-- The incompatibility under resolution is satisfied by the trail. -/
def PgConflicting (c : PgConfig γ) : Prop :=
  ∀ current, c.phase = .resolve current →
    ∀ t ∈ c.solver.terms current, pgTermState c.solver.trail t = .satisfied

theorem pgComputePositiveRangeFrom_scan (term : PgTerm) :
    ∀ (trail : List PgAssignment) (scan : PgTermScan) (result : Option PgVersionRange),
      pgComputePositiveRangeFrom term.pkg scan.positiveRange trail = some result →
      (trail.foldl (pgTermScanStep term) scan).positiveRange = result := by
  intro trail
  induction trail with
  | nil => intro scan result run; exact Option.some.inj run
  | cons a trail ih =>
    intro scan result run
    rw [List.foldl_cons]
    refine ih _ _ ?_
    simp only [pgComputePositiveRangeFrom] at run
    rw [pgTermScanStep_positiveRange]
    split at run
    · rename_i skipped
      rw [if_neg]
      · exact run
      · rintro ⟨same, positive⟩
        simp [same, positive] at skipped
    · rename_i taken
      rw [if_pos]
      · cases seen : scan.positiveRange with
        | none => rw [seen] at run; exact run
        | some range =>
          rw [seen] at run
          dsimp only at run
          split at run
          · cases run
          · exact run
      · simpa using taken

/-- The range a package is required to lie in, as a term, is satisfied. -/
theorem pgTermState_required {trail : List PgAssignment} {pkg : PgPackageId}
    {required : PgVersionRange}
    (run : pgSolverComputePositiveRange trail pkg = some (some required)) :
    pgTermState trail { pkg := pkg, range := required, positive := true } = .satisfied := by
  have scan := pgComputePositiveRangeFrom_scan
    { pkg := pkg, range := required, positive := true } trail ⟨none, false⟩ _ run
  rw [pgTermState_eq, pgTermScan, scan]
  simp [pgRangeSubset_refl]

theorem PgTransition.conflicting {roots : List PgDependency} {c c' : PgConfig γ}
    (step : PgTransition P c c') (well : PgWellFormed roots c) (justified : PgJustified c.solver)
    (conflicting : PgConflicting c) : PgConflicting c' := by
  cases step with
  | conflict run =>
    intro current phase
    cases phase
    exact pgExamineTerms_conflict run
  | @noVersions s s' id outcome =>
    intro current phase
    cases phase
    cases outcome with
    | @noVersions cv pkg required vs filled cell candidate none earlier =>
      intro t member
      have terms := add_terms_new { s with cachedVersions := cv }
        (pgNoVersionsTerms pkg required) .noVersions
      have here : t ∈ pgNoVersionsTerms pkg required := by rw [← terms]; exact member
      rw [List.mem_singleton.mp here]
      simpa using pgTermState_required candidate.range
  | @resolved s s' current id outcome =>
    intro next phase
    cases phase
    cases outcome with
    | @resolved index termIndex satisfier term cause at_ undecided differs hasCause =>
      obtain ⟨pre, post, spec⟩ := at_.spec
      have pkg := pgAssignmentSatisfiesTerm_pkg spec.satisfies
      have justification := justified pre satisfier post spec.split cause hasCause
      intro t member
      rw [pgResolveWith_terms] at member
      rcases List.mem_append.mp member with left | right
      · exact conflicting current rfl t (List.mem_filter.mp left).1
      · obtain ⟨on, other⟩ := List.mem_filter.mp right
        have earlier : pre <+: s.trail := ⟨satisfier :: post, spec.split.symm⟩
        refine (pgTermState_longer earlier).1 ?_
        refine justification.2 t on ?_
        rw [pkg]
        exact of_decide_eq_true other
  | halted => exact conflicting
  | _ => intro current phase; cases phase

end ElmWrap
