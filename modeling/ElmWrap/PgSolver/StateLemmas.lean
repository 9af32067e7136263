import ElmWrap.PgSolver.State
import Mathlib.Data.List.Basic

/-!
# What the operations on the solver state change

One lemma for each field an operation of `PgSolver/State.lean` touches, so that
no later proof unfolds one of them.
-/

namespace ElmWrap

open Lib

variable {γ : Type} {s : PgSolver γ}

/-! ## Pushing an assignment -/

section Push

variable (s : PgSolver γ) (a : PgAssignment)

@[simp] theorem push_providerCtx : (pgSolverPushAssignment s a).providerCtx = s.providerCtx := rfl
@[simp] theorem push_rootPkg : (pgSolverPushAssignment s a).rootPkg = s.rootPkg := rfl
@[simp] theorem push_rootVersion :
    (pgSolverPushAssignment s a).rootVersion = s.rootVersion := rfl
@[simp] theorem push_trail : (pgSolverPushAssignment s a).trail = s.trail ++ [a] := rfl
@[simp] theorem push_incompatibilities :
    (pgSolverPushAssignment s a).incompatibilities = s.incompatibilities := rfl
@[simp] theorem push_incompat (id : PgIncompatId) :
    (pgSolverPushAssignment s a).incompat id = s.incompat id := rfl
@[simp] theorem push_pkgIncompatList (pkg : PgPackageId) :
    (pgSolverPushAssignment s a).pkgIncompatList pkg = s.pkgIncompatList pkg := rfl
@[simp] theorem push_currentDecisionLevel :
    (pgSolverPushAssignment s a).currentDecisionLevel = s.currentDecisionLevel := rfl
@[simp] theorem push_changedPkgs :
    (pgSolverPushAssignment s a).changedPkgs = a.pkg :: s.changedPkgs := rfl
@[simp] theorem push_cachedVersions :
    (pgSolverPushAssignment s a).cachedVersions = s.cachedVersions := rfl
@[simp] theorem push_solved : (pgSolverPushAssignment s a).solved = s.solved := rfl

@[simp] theorem push_pkgStateCapacity :
    (pgSolverPushAssignment s a).pkgStateCapacity =
      Table.capacityFor s.pkgStateCapacity a.pkg := by
  simp [pgSolverPushAssignment, pgSolverEnqueueChanged, pgSolverEnsurePkgState,
    PgSolver.pkgStateCapacity]

theorem push_pkgState (pkg : PgPackageId) :
    (pgSolverPushAssignment s a).pkgState pkg =
      if pkg = a.pkg then pgPkgStateRecord a (s.pkgState pkg) else s.pkgState pkg := by
  have update := Table.getD_put PgPkgState.fresh s.pkgStates a.pkg pkg
    (pgPkgStateRecord a (s.pkgState a.pkg))
  simp only [pgSolverPushAssignment, pgSolverEnqueueChanged, pgSolverEnsurePkgState,
    PgSolver.pkgState, Table.getD_grow]
  rw [Table.put] at update
  rw [PgSolver.pkgState] at update
  rw [update]
  split
  · subst pkg; rfl
  · rfl

end Push

/-! ## Attaching an incompatibility -/

/-- The loop of `pg_solver_attach_incompatibility` in closed form. -/
theorem attachTerms_eq (id : PgIncompatId) (terms : List PgTerm) :
    ∀ s : PgSolver γ, terms.foldl (pgSolverAttachTerm id) s = { s with
      pkgStates := terms.foldl (fun st t => Table.grow PgPkgState.fresh st t.pkg) s.pkgStates
      pkgIncompatLists := terms.foldl
        (fun ls t => Table.put [] ls t.pkg (ls.getD t.pkg [] ++ [id])) s.pkgIncompatLists
      changedPkgs := (terms.map PgTerm.pkg).reverse ++ s.changedPkgs } := by
  induction terms with
  | nil => intro s; rfl
  | cons t ts ih =>
    intro s
    rw [List.foldl_cons, ih]
    simp [pgSolverAttachTerm, pgSolverEnqueueChanged, pgSolverEnsurePkgState,
      PgSolver.pkgIncompatList]

theorem getD_foldl_grow (terms : List PgTerm) (pkg : PgPackageId) :
    ∀ st : List PgPkgState,
      (terms.foldl (fun st t => Table.grow PgPkgState.fresh st t.pkg) st).getD pkg
        PgPkgState.fresh = st.getD pkg PgPkgState.fresh := by
  induction terms with
  | nil => intro st; rfl
  | cons t ts ih => intro st; rw [List.foldl_cons, ih, Table.getD_grow]

theorem length_foldl_grow (terms : List PgTerm) :
    ∀ st : List PgPkgState, st.length ≤
      (terms.foldl (fun st t => Table.grow PgPkgState.fresh st t.pkg) st).length := by
  induction terms with
  | nil => intro st; exact le_refl _
  | cons t ts ih =>
    intro st
    rw [List.foldl_cons]
    refine le_trans ?_ (ih _)
    rw [Table.length_grow]
    exact Table.le_capacityFor _ _

/-- A package's list after an incompatibility was appended to the list of each
of its terms. -/
theorem mem_foldl_lists (id : PgIncompatId) (terms : List PgTerm) (pkg : PgPackageId)
    (j : PgIncompatId) :
    ∀ ls : List (List PgIncompatId),
      j ∈ (terms.foldl (fun ls t => Table.put [] ls t.pkg (ls.getD t.pkg [] ++ [id])) ls).getD
          pkg [] ↔
        j ∈ ls.getD pkg [] ∨ (j = id ∧ ∃ t ∈ terms, t.pkg = pkg) := by
  induction terms with
  | nil => intro ls; simp
  | cons t ts ih =>
    intro ls
    rw [List.foldl_cons, ih, Table.getD_put]
    by_cases same : pkg = t.pkg
    · subst same
      simp
      tauto
    · have other : t.pkg ≠ pkg := fun h => same h.symm
      simp [same, other]

section Attach

variable (s : PgSolver γ) (id : PgIncompatId)

/-- Attaching in closed form, for an incompatibility not attached before. -/
theorem attach_eq (fresh : (s.incompat id).attached = false) :
    pgSolverAttachIncompatibility s id = { s with
      pkgStates := (s.incompat id).terms.foldl
        (fun st t => Table.grow PgPkgState.fresh st t.pkg) s.pkgStates
      pkgIncompatLists := (s.incompat id).terms.foldl
        (fun ls t => Table.put [] ls t.pkg (ls.getD t.pkg [] ++ [id])) s.pkgIncompatLists
      changedPkgs := ((s.incompat id).terms.map PgTerm.pkg).reverse ++ s.changedPkgs
      incompatibilities :=
        s.incompatibilities.modify id fun inc => { inc with attached := true } } := by
  simp only [pgSolverAttachIncompatibility, fresh, attachTerms_eq]
  rfl

theorem attach_attached (done : (s.incompat id).attached = true) :
    pgSolverAttachIncompatibility s id = s := by
  simp [pgSolverAttachIncompatibility, done]

@[simp] theorem attach_providerCtx :
    (pgSolverAttachIncompatibility s id).providerCtx = s.providerCtx := by
  cases flag : (s.incompat id).attached
  · rw [attach_eq s id flag]
  · rw [attach_attached s id flag]
@[simp] theorem attach_rootPkg :
    (pgSolverAttachIncompatibility s id).rootPkg = s.rootPkg := by
  cases flag : (s.incompat id).attached
  · rw [attach_eq s id flag]
  · rw [attach_attached s id flag]
@[simp] theorem attach_rootVersion :
    (pgSolverAttachIncompatibility s id).rootVersion = s.rootVersion := by
  cases flag : (s.incompat id).attached
  · rw [attach_eq s id flag]
  · rw [attach_attached s id flag]
@[simp] theorem attach_trail : (pgSolverAttachIncompatibility s id).trail = s.trail := by
  cases flag : (s.incompat id).attached
  · rw [attach_eq s id flag]
  · rw [attach_attached s id flag]
@[simp] theorem attach_currentDecisionLevel :
    (pgSolverAttachIncompatibility s id).currentDecisionLevel = s.currentDecisionLevel := by
  cases flag : (s.incompat id).attached
  · rw [attach_eq s id flag]
  · rw [attach_attached s id flag]
@[simp] theorem attach_cachedVersions :
    (pgSolverAttachIncompatibility s id).cachedVersions = s.cachedVersions := by
  cases flag : (s.incompat id).attached
  · rw [attach_eq s id flag]
  · rw [attach_attached s id flag]
@[simp] theorem attach_solved :
    (pgSolverAttachIncompatibility s id).solved = s.solved := by
  cases flag : (s.incompat id).attached
  · rw [attach_eq s id flag]
  · rw [attach_attached s id flag]
@[simp] theorem attach_length :
    (pgSolverAttachIncompatibility s id).incompatibilities.length =
      s.incompatibilities.length := by
  cases flag : (s.incompat id).attached
  · rw [attach_eq s id flag]; simp
  · rw [attach_attached s id flag]

@[simp] theorem attach_pkgState (pkg : PgPackageId) :
    (pgSolverAttachIncompatibility s id).pkgState pkg = s.pkgState pkg := by
  cases flag : (s.incompat id).attached
  · rw [attach_eq s id flag]; exact getD_foldl_grow _ _ _
  · rw [attach_attached s id flag]

theorem attach_pkgStateCapacity :
    s.pkgStateCapacity ≤ (pgSolverAttachIncompatibility s id).pkgStateCapacity := by
  cases flag : (s.incompat id).attached
  · rw [attach_eq s id flag]; exact length_foldl_grow _ _
  · rw [attach_attached s id flag]

theorem incompat_modify (j : PgIncompatId) :
    ((s.incompatibilities.modify id fun inc => { inc with attached := true }).getD j default) =
      if id = j ∧ j < s.incompatibilities.length then { s.incompat j with attached := true }
      else s.incompat j := by
  simp only [PgSolver.incompat, List.getD_eq_getElem?_getD, List.getElem?_modify]
  by_cases same : id = j
  · subst same
    by_cases inside : id < s.incompatibilities.length
    · simp [inside]
    · simp [inside]
  · simp [same]

/-- Attaching changes no terms. -/
@[simp] theorem attach_terms (j : PgIncompatId) :
    ((pgSolverAttachIncompatibility s id).incompat j).terms = (s.incompat j).terms := by
  cases flag : (s.incompat id).attached
  · rw [attach_eq s id flag, PgSolver.incompat, incompat_modify]
    split <;> rfl
  · rw [attach_attached s id flag]

theorem attach_attached_iff (inside : id < s.incompatibilities.length) (j : PgIncompatId) :
    ((pgSolverAttachIncompatibility s id).incompat j).attached = true ↔
      j = id ∨ (s.incompat j).attached = true := by
  cases flag : (s.incompat id).attached
  · rw [attach_eq s id flag, PgSolver.incompat, incompat_modify]
    by_cases same : j = id
    · subst same; simp [inside]
    · have other : id ≠ j := fun h => same h.symm
      simp [same, other]
  · rw [attach_attached s id flag]
    constructor
    · exact Or.inr
    · rintro (rfl | attached)
      · exact flag
      · exact attached

theorem mem_attach_pkgIncompatList (fresh : (s.incompat id).attached = false)
    (pkg : PgPackageId) (j : PgIncompatId) :
    j ∈ (pgSolverAttachIncompatibility s id).pkgIncompatList pkg ↔
      j ∈ s.pkgIncompatList pkg ∨ (j = id ∧ ∃ t ∈ (s.incompat id).terms, t.pkg = pkg) := by
  rw [attach_eq s id fresh]
  exact mem_foldl_lists _ _ _ _ _

theorem attach_changedPkgs (fresh : (s.incompat id).attached = false) :
    (pgSolverAttachIncompatibility s id).changedPkgs =
      ((s.incompat id).terms.map PgTerm.pkg).reverse ++ s.changedPkgs := by
  rw [attach_eq s id fresh]

end Attach

/-! ## Tracking and adding an incompatibility -/

section Track

variable (s : PgSolver γ) (terms : List PgTerm) (reason : PgIncompatibilityReason)
  (causes : List PgIncompatId)

@[simp] theorem track_providerCtx :
    (pgSolverTrackIncompatibility s terms reason causes).1.providerCtx = s.providerCtx := rfl
@[simp] theorem track_rootPkg :
    (pgSolverTrackIncompatibility s terms reason causes).1.rootPkg = s.rootPkg := rfl
@[simp] theorem track_rootVersion :
    (pgSolverTrackIncompatibility s terms reason causes).1.rootVersion = s.rootVersion := rfl
@[simp] theorem track_trail :
    (pgSolverTrackIncompatibility s terms reason causes).1.trail = s.trail := rfl
@[simp] theorem track_currentDecisionLevel :
    (pgSolverTrackIncompatibility s terms reason causes).1.currentDecisionLevel =
      s.currentDecisionLevel := rfl
@[simp] theorem track_pkgState (pkg : PgPackageId) :
    (pgSolverTrackIncompatibility s terms reason causes).1.pkgState pkg = s.pkgState pkg := rfl
@[simp] theorem track_pkgStateCapacity :
    (pgSolverTrackIncompatibility s terms reason causes).1.pkgStateCapacity =
      s.pkgStateCapacity := rfl
@[simp] theorem track_pkgIncompatList (pkg : PgPackageId) :
    (pgSolverTrackIncompatibility s terms reason causes).1.pkgIncompatList pkg =
      s.pkgIncompatList pkg := rfl
@[simp] theorem track_changedPkgs :
    (pgSolverTrackIncompatibility s terms reason causes).1.changedPkgs = s.changedPkgs := rfl
@[simp] theorem track_cachedVersions :
    (pgSolverTrackIncompatibility s terms reason causes).1.cachedVersions =
      s.cachedVersions := rfl
@[simp] theorem track_solved :
    (pgSolverTrackIncompatibility s terms reason causes).1.solved = s.solved := rfl

@[simp] theorem track_length :
    (pgSolverTrackIncompatibility s terms reason causes).1.incompatibilities.length =
      s.incompatibilities.length + 1 := by
  simp [pgSolverTrackIncompatibility]

theorem track_incompat_old {j : PgIncompatId} (old : j < s.incompatibilities.length) :
    (pgSolverTrackIncompatibility s terms reason causes).1.incompat j = s.incompat j := by
  simp [pgSolverTrackIncompatibility, PgSolver.incompat, List.getD_eq_getElem?_getD,
    List.getElem?_append, old]

@[simp] theorem track_incompat_new :
    (pgSolverTrackIncompatibility s terms reason causes).1.incompat s.incompatibilities.length =
      { terms := terms, reason := reason, causes := causes, attached := false } := by
  simp [pgSolverTrackIncompatibility, PgSolver.incompat, List.getD_eq_getElem?_getD]

/-- What is stored after tracking was stored before or is the new
incompatibility. -/
theorem track_incompat_cases {j : PgIncompatId}
    (stored : j < (pgSolverTrackIncompatibility s terms reason causes).1.incompatibilities.length) :
    (j < s.incompatibilities.length ∧
        (pgSolverTrackIncompatibility s terms reason causes).1.incompat j = s.incompat j) ∨
      (j = s.incompatibilities.length ∧
        (pgSolverTrackIncompatibility s terms reason causes).1.incompat j =
          { terms := terms, reason := reason, causes := causes, attached := false }) := by
  rw [track_length] at stored
  by_cases old : j < s.incompatibilities.length
  · exact Or.inl ⟨old, track_incompat_old s terms reason causes old⟩
  · have new := Nat.eq_of_lt_succ_of_not_lt stored old
    subst new
    exact Or.inr ⟨rfl, track_incompat_new s terms reason causes⟩

end Track

section Add

variable (s : PgSolver γ) (terms : List PgTerm) (reason : PgIncompatibilityReason)

theorem add_fst : (pgSolverAddIncompatibility s terms reason).1 =
    pgSolverAttachIncompatibility (pgSolverTrackIncompatibility s terms reason []).1
      s.incompatibilities.length := rfl

@[simp] theorem add_providerCtx :
    (pgSolverAddIncompatibility s terms reason).1.providerCtx = s.providerCtx := by
  simp [add_fst]
@[simp] theorem add_rootPkg :
    (pgSolverAddIncompatibility s terms reason).1.rootPkg = s.rootPkg := by
  simp [add_fst]
@[simp] theorem add_rootVersion :
    (pgSolverAddIncompatibility s terms reason).1.rootVersion = s.rootVersion := by
  simp [add_fst]
@[simp] theorem add_trail : (pgSolverAddIncompatibility s terms reason).1.trail = s.trail := by
  simp [add_fst]
@[simp] theorem add_currentDecisionLevel :
    (pgSolverAddIncompatibility s terms reason).1.currentDecisionLevel =
      s.currentDecisionLevel := by
  simp [add_fst]
@[simp] theorem add_cachedVersions :
    (pgSolverAddIncompatibility s terms reason).1.cachedVersions = s.cachedVersions := by
  simp [add_fst]
@[simp] theorem add_solved :
    (pgSolverAddIncompatibility s terms reason).1.solved = s.solved := by
  simp [add_fst]
@[simp] theorem add_length :
    (pgSolverAddIncompatibility s terms reason).1.incompatibilities.length =
      s.incompatibilities.length + 1 := by
  simp [add_fst]
@[simp] theorem add_pkgState (pkg : PgPackageId) :
    (pgSolverAddIncompatibility s terms reason).1.pkgState pkg = s.pkgState pkg := by
  simp [add_fst]

theorem add_pkgStateCapacity :
    s.pkgStateCapacity ≤ (pgSolverAddIncompatibility s terms reason).1.pkgStateCapacity := by
  rw [add_fst]
  exact attach_pkgStateCapacity (pgSolverTrackIncompatibility s terms reason []).1 _

@[simp] theorem add_terms_new :
    ((pgSolverAddIncompatibility s terms reason).1.incompat s.incompatibilities.length).terms =
      terms := by
  simp [add_fst]

theorem add_attached_iff {j : PgIncompatId}
    (stored : j < (pgSolverAddIncompatibility s terms reason).1.incompatibilities.length) :
    ((pgSolverAddIncompatibility s terms reason).1.incompat j).attached = true ↔
      j = s.incompatibilities.length ∨
        (j < s.incompatibilities.length ∧ (s.incompat j).attached = true) := by
  rw [add_length] at stored
  rw [add_fst, attach_attached_iff _ _ (by simp)]
  by_cases old : j < s.incompatibilities.length
  · simp [track_incompat_old s terms reason [] old, old]
  · have new := Nat.eq_of_lt_succ_of_not_lt stored old
    subst new
    simp

theorem add_changedPkgs :
    (pgSolverAddIncompatibility s terms reason).1.changedPkgs =
      (terms.map PgTerm.pkg).reverse ++ s.changedPkgs := by
  rw [add_fst, attach_changedPkgs _ _ (by simp)]
  simp

end Add

/-! ## Cutting the trail -/

theorem pgTrailCut_initial (level : Nat) (trail : List PgAssignment) :
    pgTrailCut level trail <+: trail :=
  List.rdropWhile_prefix _ _

theorem mem_of_mem_pgTrailCut {level : Nat} {trail : List PgAssignment} {a : PgAssignment}
    (member : a ∈ pgTrailCut level trail) : a ∈ trail :=
  (pgTrailCut_initial level trail).subset member

section Backtrack

variable (s : PgSolver γ) (level : Nat)

@[simp] theorem backtrack_providerCtx :
    (pgSolverBacktrackToLevel s level).providerCtx = s.providerCtx := rfl
@[simp] theorem backtrack_rootPkg :
    (pgSolverBacktrackToLevel s level).rootPkg = s.rootPkg := rfl
@[simp] theorem backtrack_rootVersion :
    (pgSolverBacktrackToLevel s level).rootVersion = s.rootVersion := rfl
@[simp] theorem backtrack_trail :
    (pgSolverBacktrackToLevel s level).trail = pgTrailCut level s.trail := rfl
@[simp] theorem backtrack_incompatibilities :
    (pgSolverBacktrackToLevel s level).incompatibilities = s.incompatibilities := rfl
@[simp] theorem backtrack_incompat (id : PgIncompatId) :
    (pgSolverBacktrackToLevel s level).incompat id = s.incompat id := rfl
@[simp] theorem backtrack_pkgIncompatList (pkg : PgPackageId) :
    (pgSolverBacktrackToLevel s level).pkgIncompatList pkg = s.pkgIncompatList pkg := rfl
@[simp] theorem backtrack_currentDecisionLevel :
    (pgSolverBacktrackToLevel s level).currentDecisionLevel = level := rfl
@[simp] theorem backtrack_cachedVersions :
    (pgSolverBacktrackToLevel s level).cachedVersions = s.cachedVersions := rfl
@[simp] theorem backtrack_solved :
    (pgSolverBacktrackToLevel s level).solved = s.solved := rfl

theorem mem_backtrack_changedPkgs {pkg : PgPackageId} :
    pkg ∈ (pgSolverBacktrackToLevel s level).changedPkgs ↔
      ∃ a ∈ pgTrailCut level s.trail, a.pkg = pkg := by
  simp [pgSolverBacktrackToLevel]

end Backtrack

end ElmWrap
