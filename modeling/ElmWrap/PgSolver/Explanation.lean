import Mathlib.Logic.Relation
import ElmWrap.PgSolver.Explain

/-!
# What an explanation says

The derivation of a root incompatibility, and what the text for it states and refers
to. Every branch of the explanation is a run of calls for causes, with pieces between
them; `PgExplains` is what one call does, and `PgRun` composes it.
-/

namespace ElmWrap

variable {γ : Type}

/-! ## Derivations -/

/-- Where the incompatibility of an id comes from. -/
inductive PgOrigin (rootPkg : PgPackageId) (id : PgIncompatId) (inc : PgIncompatibility) : Prop
  | dependency (reason : inc.reason = .dependency) (causes : inc.causes = [])
      (two : ∃ depender dependency, inc.terms = [depender, dependency])
  | noVersions (reason : inc.reason = .noVersions) (causes : inc.causes = [])
      (one : ∃ term, inc.terms = [term] ∧ term.pkg ≠ rootPkg)
  | resolved (reason : inc.reason = .internal)
      (causes : ∃ left right, inc.causes = [left, right] ∧ left < id ∧ right < id)

/-- Every incompatibility is external or derived from two earlier ones. -/
def PgDerivationGraph (s : PgSolver γ) : Prop :=
  ∀ id < s.incompatibilities.length, PgOrigin s.rootPkg id (s.incompat id)

/-- An incompatibility is a cause of another. -/
def PgCause (s : PgSolver γ) (a b : PgIncompatId) : Prop := b ∈ (s.incompat a).causes

/-- An external incompatibility takes part in the derivation of an id. -/
def PgLeafBelow (s : PgSolver γ) (id : PgIncompatId) (leaf : PgIncompatibility) : Prop :=
  ∃ l, Relation.ReflTransGen (PgCause s) id l ∧ (s.incompat l).causes = [] ∧ leaf = s.incompat l

/-- An external incompatibility takes part in a derivation. -/
def PgLeafOf (s : PgSolver γ) (inc leaf : PgIncompatibility) : Prop :=
  inc.causes = [] ∧ leaf = inc ∨ ∃ id ∈ inc.causes, PgLeafBelow s id leaf

/-- Two derived causes, none of which rests on external ones alone: the code numbers both. -/
def PgTangled (s : PgSolver γ) (inc : PgIncompatibility) : Prop :=
  pgIncompatibilityIsRootFailure s.rootPkg inc = false ∧
    ∃ first second, inc.causes = [first, second] ∧ s.derived first = true ∧
      s.derived second = true ∧ pgIsSimpleDerived s (s.incompat first) = false ∧
      pgIsSimpleDerived s (s.incompat second) = false

/-- No incompatibility of a derivation is tangled. -/
def PgUntangled (s : PgSolver γ) (inc : PgIncompatibility) : Prop :=
  ¬ PgTangled s inc ∧ ∀ cause ∈ inc.causes, ∀ id,
    Relation.ReflTransGen (PgCause s) cause id → ¬ PgTangled s (s.incompat id)

variable {id : PgIncompatId} {leaf : PgIncompatibility} {e e' e'' : PgExplanation}

theorem pgLeafBelow_iff {s : PgSolver γ} :
    PgLeafBelow s id leaf ↔ PgLeafOf s (s.incompat id) leaf := by
  constructor
  · rintro ⟨l, path, external, rfl⟩
    rcases Relation.ReflTransGen.cases_head path with rfl | ⟨b, edge, rest⟩
    · exact Or.inl ⟨external, rfl⟩
    · exact Or.inr ⟨b, edge, l, rest, external, rfl⟩
  · rintro (⟨external, rfl⟩ | ⟨b, edge, l, rest, external, rfl⟩)
    · exact ⟨id, .refl, external, rfl⟩
    · exact ⟨l, .head edge rest, external, rfl⟩

/-- An explanation states an external incompatibility. -/
def PgExplanation.Mentions (e : PgExplanation) (leaf : PgIncompatibility) : Prop :=
  ∃ piece ∈ e.pieces, piece.mentions = some leaf

/-- An explanation refers to a line. -/
def PgExplanation.Refers (e : PgExplanation) : Prop := ∃ piece ∈ e.pieces, piece.references ≠ []

/-- The numbered incompatibilities have been explained. -/
def PgExplanation.Said (s : PgSolver γ) (e : PgExplanation) : Prop :=
  ∀ id ∈ e.numbered, ∀ leaf, PgLeafBelow s id leaf → e.Mentions leaf

/-- Pieces without labels are added. -/
structure PgGrown (e e' : PgExplanation) : Prop where
  grows : e.pieces <+: e'.pieces
  unlabelled : ∀ piece ∈ e'.pieces, piece ∈ e.pieces ∨ piece.label = none

/-- An explanation goes on. -/
structure PgTold (s : PgSolver γ) (e e' : PgExplanation) : Prop extends PgGrown e e' where
  said : e.Said s → e'.Said s

/-- Nothing is numbered and nothing referred to. -/
def PgQuiet (e e' : PgExplanation) : Prop :=
  e.numbered = [] → e'.numbered = [] ∧
    ∀ piece ∈ e'.pieces, piece ∈ e.pieces ∨ piece.references = []

/-- What the explanation of an incompatibility adds. -/
structure PgExplains (s : PgSolver γ) (inc : PgIncompatibility) (e e' : PgExplanation) : Prop where
  told : PgTold s e e'
  mentions : e.Said s → ∀ leaf, PgLeafOf s inc leaf → e'.Mentions leaf
  quiet : PgUntangled s inc → PgQuiet e e'
  refers : ¬ PgUntangled s inc → e.numbered = [] → e'.Refers

theorem PgExplanation.Mentions.mono (mentions : e.Mentions leaf) (grows : e.pieces <+: e'.pieces) :
    e'.Mentions leaf := by
  obtain ⟨piece, on, same⟩ := mentions
  exact ⟨piece, grows.subset on, same⟩

theorem PgExplanation.Refers.mono (refers : e.Refers) (grows : e.pieces <+: e'.pieces) :
    e'.Refers := by
  obtain ⟨piece, on, some_⟩ := refers
  exact ⟨piece, grows.subset on, some_⟩

theorem PgGrown.refl (e : PgExplanation) : PgGrown e e where
  grows := List.prefix_rfl
  unlabelled _ on := Or.inl on

theorem PgGrown.trans (first : PgGrown e e') (second : PgGrown e' e'') :
    PgGrown e e'' where
  grows := first.grows.trans second.grows
  unlabelled piece on := by
    rcases second.unlabelled piece on with old | plain
    · exact first.unlabelled piece old
    · exact Or.inr plain

theorem PgGrown.append (e : PgExplanation) (piece : PgErrorPiece) (plain : piece.label = none) :
    PgGrown e (e.append piece) where
  grows := List.prefix_append _ _
  unlabelled other on := by
    rcases List.mem_append.mp on with old | new
    · exact Or.inl old
    · exact Or.inr (List.mem_singleton.mp new ▸ plain)

theorem PgGrown.assign (e : PgExplanation) (id : PgIncompatId) :
    PgGrown e (pgLineNumberingAssign e id) := by
  unfold pgLineNumberingAssign
  split
  · exact .refl e
  · exact ⟨List.prefix_rfl, fun _ on => Or.inl on⟩

theorem PgExplanation.Said.assign {s : PgSolver γ} (said : e.Said s)
    (explained : ∀ leaf, PgLeafBelow s id leaf → e.Mentions leaf) :
    (pgLineNumberingAssign e id).Said s := by
  unfold pgLineNumberingAssign
  split
  · exact said
  · intro other on leaf below
    rcases List.mem_append.mp on with old | new
    · exact said other old leaf below
    · exact explained leaf (List.mem_singleton.mp new ▸ below)

theorem PgTold.refl (s : PgSolver γ) (e : PgExplanation) : PgTold s e e :=
  ⟨.refl e, fun said => said⟩

theorem PgTold.trans {s : PgSolver γ} (first : PgTold s e e') (second : PgTold s e' e'') :
    PgTold s e e'' :=
  ⟨first.toPgGrown.trans second.toPgGrown, fun said => second.said (first.said said)⟩

theorem PgTold.append (s : PgSolver γ) (e : PgExplanation) (piece : PgErrorPiece)
    (plain : piece.label = none) : PgTold s e (e.append piece) :=
  ⟨.append e piece plain,
    fun said id on leaf below => (said id on leaf below).mono (List.prefix_append _ _)⟩

theorem PgQuiet.trans (first : PgQuiet e e') (second : PgQuiet e' e'') :
    PgQuiet e e'' := by
  intro none_
  obtain ⟨none', plain⟩ := first none_
  obtain ⟨none'', plain'⟩ := second none'
  refine ⟨none'', fun piece on => ?_⟩
  rcases plain' piece on with old | new
  · exact plain piece old
  · exact Or.inr new

theorem PgQuiet.append (e : PgExplanation) {piece : PgErrorPiece}
    (plain : piece.references = []) : PgQuiet e (e.append piece) := by
  refine fun none_ => ⟨none_, fun other on => ?_⟩
  rcases List.mem_append.mp on with old | new
  · exact Or.inl old
  · exact Or.inr (List.mem_singleton.mp new ▸ plain)

/-! ## Runs of calls -/

/-- Calls for causes, in order, with pieces between them that refer to no line; and the
incompatibilities that these pieces state. -/
inductive PgRun (s : PgSolver γ) (e : PgExplanation) :
    List PgIncompatId → List PgIncompatibility → PgExplanation → Prop
  | start : PgRun s e [] [] e
  | say {ids : List PgIncompatId} {stated : List PgIncompatibility} {e' : PgExplanation}
      (run : PgRun s e ids stated e') (piece : PgErrorPiece) (plain : piece.references = [])
      (unlabelled : piece.label = none) : PgRun s e ids stated (e'.append piece)
  | state {ids : List PgIncompatId} {stated : List PgIncompatibility} {e' : PgExplanation}
      (run : PgRun s e ids stated e') {piece : PgErrorPiece} {inc : PgIncompatibility}
      (mention : ∃ text, piece = pgMention inc text) :
      PgRun s e ids (stated ++ [inc]) (e'.append piece)
  | explain {ids : List PgIncompatId} {stated : List PgIncompatibility} {e' e'' : PgExplanation}
      {id : PgIncompatId} (run : PgRun s e ids stated e')
      (explains : PgExplains s (s.incompat id) e' e'') : PgRun s e (ids ++ [id]) stated e''

section

variable {s : PgSolver γ} {e e' : PgExplanation} {ids : List PgIncompatId}
  {stated : List PgIncompatibility}

theorem PgRun.words (run : PgRun s e ids stated e') (text : String) :
    PgRun s e ids stated (e'.append (pgWords text)) := run.say _ rfl rfl

theorem PgRun.told (run : PgRun s e ids stated e') : PgTold s e e' := by
  induction run with
  | start => exact .refl s e
  | say _ piece _ unlabelled ih => exact ih.trans (.append s _ piece unlabelled)
  | state _ mention ih =>
    obtain ⟨text, rfl⟩ := mention
    exact ih.trans (.append s _ _ rfl)
  | explain _ explains ih => exact ih.trans explains.told

theorem PgRun.states (run : PgRun s e ids stated e') (member : leaf ∈ stated) :
    e'.Mentions leaf := by
  induction run with
  | start => cases member
  | say _ _ _ _ ih => exact (ih member).mono (List.prefix_append _ _)
  | state _ mention ih =>
    rcases List.mem_append.mp member with old | new
    · exact (ih old).mono (List.prefix_append _ _)
    · obtain ⟨text, rfl⟩ := mention
      rw [List.mem_singleton.mp new]
      exact ⟨_, List.mem_append_right _ (List.mem_singleton.mpr rfl), rfl⟩
  | explain _ explains ih => exact (ih member).mono explains.told.grows

theorem PgRun.mentions (run : PgRun s e ids stated e') (said : e.Said s) (member : id ∈ ids)
    (below : PgLeafBelow s id leaf) :
    e'.Mentions leaf := by
  induction run with
  | start => cases member
  | say _ _ _ _ ih => exact (ih member).mono (List.prefix_append _ _)
  | state _ _ ih => exact (ih member).mono (List.prefix_append _ _)
  | explain run explains ih =>
    rcases List.mem_append.mp member with old | new
    · exact (ih old).mono explains.told.grows
    · rw [List.mem_singleton.mp new] at below
      exact explains.mentions (run.told.said said) leaf (pgLeafBelow_iff.mp below)

theorem PgRun.quiet (run : PgRun s e ids stated e')
    (untangled : ∀ id ∈ ids, PgUntangled s (s.incompat id)) : PgQuiet e e' := by
  induction run with
  | start => exact fun none_ => ⟨none_, fun _ on => Or.inl on⟩
  | say _ _ plain _ ih => exact (ih untangled).trans (.append _ plain)
  | state _ mention ih =>
    obtain ⟨text, rfl⟩ := mention
    exact (ih untangled).trans (.append _ rfl)
  | explain _ explains ih =>
    refine (ih fun id on => untangled id (List.mem_append_left _ on)).trans (explains.quiet ?_)
    exact untangled _ (List.mem_append_right _ (List.mem_singleton.mpr rfl))

theorem PgRun.refers (run : PgRun s e ids stated e')
    (tangled : ¬ ∀ id ∈ ids, PgUntangled s (s.incompat id)) (none_ : e.numbered = []) :
    e'.Refers := by
  induction run with
  | start => exact absurd (List.forall_mem_nil _) tangled
  | say _ _ _ _ ih => exact (ih tangled).mono (List.prefix_append _ _)
  | state _ _ ih => exact (ih tangled).mono (List.prefix_append _ _)
  | @explain ids stated e' e'' id run explains ih =>
    by_cases before : ∀ id ∈ ids, PgUntangled s (s.incompat id)
    · refine explains.refers (fun here => tangled ?_) (run.quiet before none_).1
      intro other on
      rcases List.mem_append.mp on with old | new
      · exact before other old
      · rw [List.mem_singleton.mp new]
        exact here
    · exact (ih before).mono explains.told.grows

/-- A run explains an incompatibility when it reaches every external one of the derivation, and
makes the calls for the causes that may be tangled. -/
theorem PgRun.explains {inc : PgIncompatibility} (run : PgRun s e ids stated e')
    (covers : ∀ leaf, PgLeafOf s inc leaf → (∃ id ∈ ids, PgLeafBelow s id leaf) ∨ leaf ∈ stated)
    (same : PgUntangled s inc ↔ ∀ id ∈ ids, PgUntangled s (s.incompat id)) :
    PgExplains s inc e e' where
  told := run.told
  mentions said leaf takes := by
    rcases covers leaf takes with ⟨id, on, below⟩ | here
    · exact run.mentions said on below
    · exact run.states here
  quiet untangled := run.quiet (same.mp untangled)
  refers tangled := run.refers fun all => tangled (same.mpr all)

end

/-! ## Pieces -/

section

variable {s : PgSolver γ}

variable {inc : PgIncompatibility} {first second : PgIncompatId}

end

/-! ## Branches -/

section

variable {s : PgSolver γ} {names : PgNames} {inc : PgIncompatibility}
  {explain : PgIncompatId → PgExplanation → Option PgExplanation} {first second : PgIncompatId}

end

/-! ## The recursion -/

section

variable {s : PgSolver γ} {names : PgNames} {inc : PgIncompatibility}

end

/-! ## The text for a root -/

/-- What `pg_resolve_conflict` leaves in `root_incompatibility`. -/
inductive PgRootOf (s : PgSolver γ) (root : PgIncompatibility) : Prop
  | tracked (id : PgIncompatId) (stored : id < s.incompatibilities.length)
      (same : root = s.incompat id)
  | untracked (cause : PgIncompatId) (stored : cause < s.incompatibilities.length)
      (reason : root.reason = .internal) (causes : root.causes = [cause])

section

variable {s : PgSolver γ} {names : PgNames}

end

end ElmWrap
