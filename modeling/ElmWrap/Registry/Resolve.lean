import ElmWrap.ConstraintText

/-!
# The version a constraint is resolved to

`registry_resolve_constraint` of `registry.c` takes the first version of the
package that is in the range the constraint is parsed to. Where the versions are
in descending order that is the greatest one of this range.
-/

namespace ElmWrap

/-- `registry_resolve_constraint`; the version it writes to `out_version`. -/
def registryResolveConstraint (registry : Registry) (author name constraint : String) :
    Option Version :=
  match versionParseConstraint constraint with
  | none => none
  | some range =>
    match registryFind registry author name with
    | none => none
    | some entry =>
      if entry.versions.isEmpty then none
      else entry.versions.find? fun v => versionInRange v range

/-- The registry lists a version of a package. -/
def Registry.Lists (registry : Registry) (author name : String) (v : Version) : Prop :=
  ∃ entry, registryFind registry author name = some entry ∧ v ∈ entry.versions

/-- A text is parsed to a range that has the version. -/
def Admits (constraint : String) (v : Version) : Prop :=
  ∃ range, versionParseConstraint constraint = some range ∧ versionInRange v range = true

/-- The versions of every package are in descending order. -/
def Registry.NonAscending (registry : Registry) : Prop :=
  ∀ entry ∈ registry.entries, entry.versions.Pairwise fun v w => versionCompare w v ≤ 0

/-- The greatest version of the package that is admitted, or none where there is no such
version. -/
structure Resolves (registry : Registry) (author name : String) (admits : Version → Prop)
    (result : Option Version) : Prop where
  greatest : ∀ v, result = some v → registry.Lists author name v ∧ admits v ∧
    ∀ w, registry.Lists author name w → admits w → versionCompare w v ≤ 0
  failure : result = none ↔ registryFind registry author name = none ∨
    ∀ v, registry.Lists author name v → ¬ admits v

/-- Only the versions that are listed matter. -/
theorem Resolves.congr {registry : Registry} {author name : String} {p q : Version → Prop}
    {result : Option Version} (same : ∀ v, registry.Lists author name v → (p v ↔ q v))
    (resolves : Resolves registry author name p result) :
    Resolves registry author name q result where
  greatest v found := by
    obtain ⟨listed, admitted, above⟩ := resolves.greatest v found
    exact ⟨listed, (same v listed).mp admitted,
      fun w on admitted => above w on ((same w on).mpr admitted)⟩
  failure := by
    rw [resolves.failure]
    refine or_congr Iff.rfl (forall₂_congr fun v listed => not_congr (same v listed))

/-- In a list without ascents the first item with a property is not below any other one. -/
theorem find?_not_below {versions : List Version} {p : Version → Bool} {v w : Version}
    (sorted : versions.Pairwise fun v w => versionCompare w v ≤ 0)
    (found : versions.find? p = some v) (member : w ∈ versions) (holds : p w = true) :
    versionCompare w v ≤ 0 := by
  induction versions with
  | nil => cases member
  | cons first versions ih =>
    obtain ⟨below, rest⟩ := List.pairwise_cons.mp sorted
    cases test : p first with
    | true =>
      rw [List.find?_cons_of_pos test] at found
      cases found
      rcases List.mem_cons.mp member with rfl | later
      · exact le_of_eq (versionCompare_eq_zero.mpr rfl)
      · exact below w later
    | false =>
      rw [List.find?_cons_of_neg (by simp [test])] at found
      rcases List.mem_cons.mp member with rfl | later
      · rw [test] at holds
        cases holds
      · exact ih rest found later

theorem registryResolveConstraint_found {registry : Registry} {author name constraint : String}
    {range : VersionRange} {entry : RegistryEntry}
    (parsed : versionParseConstraint constraint = some range)
    (found : registryFind registry author name = some entry) :
    registryResolveConstraint registry author name constraint =
      entry.versions.find? fun v => versionInRange v range := by
  unfold registryResolveConstraint
  rw [parsed, found]
  dsimp only
  split
  · rename_i empty
    rw [List.isEmpty_iff.mp empty]
    rfl
  · rfl

theorem registryResolveConstraint_spec {registry : Registry} (sorted : registry.NonAscending)
    (author name constraint : String) :
    Resolves registry author name (Admits constraint)
      (registryResolveConstraint registry author name constraint) := by
  cases parsed : versionParseConstraint constraint with
  | none =>
    have result : registryResolveConstraint registry author name constraint = none := by
      unfold registryResolveConstraint
      rw [parsed]
    rw [result]
    refine ⟨(fun v same => nomatch same), fun _ => Or.inr ?_, fun _ => rfl⟩
    rintro v - ⟨range, admitted, -⟩
    rw [parsed] at admitted
    cases admitted
  | some range =>
    cases found : registryFind registry author name with
    | none =>
      have result : registryResolveConstraint registry author name constraint = none := by
        unfold registryResolveConstraint
        rw [parsed, found]
      rw [result]
      exact ⟨(fun v same => nomatch same), fun _ => Or.inl found, fun _ => rfl⟩
    | some entry =>
      have admits {v : Version} : Admits constraint v ↔ versionInRange v range = true := by
        unfold Admits
        rw [parsed]
        simp
      have lists {v : Version} : registry.Lists author name v ↔ v ∈ entry.versions := by
        unfold Registry.Lists
        rw [found]
        simp
      have ordered := sorted entry (List.mem_of_find?_eq_some found)
      rw [registryResolveConstraint_found parsed found]
      refine ⟨?_, ?_⟩
      · intro v first
        refine ⟨lists.mpr (List.mem_of_find?_eq_some first),
          admits.mpr (List.find?_some (p := fun v => versionInRange v range) first), ?_⟩
        intro w listed admitted
        exact find?_not_below ordered first (lists.mp listed) (admits.mp admitted)
      · rw [List.find?_eq_none, found]
        constructor
        · intro none_
          exact Or.inr fun v listed admitted =>
            none_ v (lists.mp listed) (admits.mp admitted)
        · rintro (unknown | none_)
          · cases unknown
          · exact fun v member admitted =>
              none_ v (lists.mpr member) (admits.mpr admitted)

/-! ## The version that the text asks for -/

/-- The version that the text of a constraint begins with. -/
def Constraint.lower : Constraint → Version
  | .exactly v => v
  | .between lower _ _ _ => lower

/-- What a text with another comparison than `<= v <` is read as. -/
theorem admits_unsupported {c : Constraint} (unsupported : ¬ c.Supported) (v : Version) :
    Admits c.text v ↔ v = c.lower := by
  cases c with
  | exactly w => exact absurd trivial unsupported
  | between lower lowerOp upperOp upper =>
    have other : ¬ (lowerOp = .le ∧ upperOp = .lt) :=
      fun ⟨low, high⟩ => unsupported ⟨low, .inl high⟩
    unfold Admits
    rw [versionParseConstraint_other other]
    simp [versionInRange_exact, Constraint.lower]

/-- No version below the one that the text begins with satisfies the constraint. -/
theorem Constraint.Satisfies.lower_le {c : Constraint} {v : Version} (satisfies : c.Satisfies v) :
    versionCompare c.lower v ≤ 0 := by
  cases c with
  | exactly w => exact le_of_eq (versionCompare_eq_zero.mpr (Eq.symm satisfies))
  | between lower lowerOp upperOp upper =>
    have first := satisfies.1
    cases lowerOp with
    | le => exact first
    | lt => exact le_of_lt first

/-- What is resolved in two ways to the same result is admitted in both ways, where the one admits
a single version and the other none below it. -/
theorem Resolves.same {registry : Registry} {author name : String} {p : Version → Prop}
    {single : Version} {result : Option Version}
    (above : ∀ v, p v → versionCompare single v ≤ 0)
    (alone : Resolves registry author name (· = single) result)
    (resolves : Resolves registry author name p result) (v : Version)
    (listed : registry.Lists author name v) : p v ↔ v = single := by
  cases result with
  | none =>
    have missing := fun known : registryFind registry author name ≠ none =>
      And.intro ((resolves.failure.mp rfl).resolve_left known v listed)
        ((alone.failure.mp rfl).resolve_left known v listed)
    obtain ⟨entry, found, -⟩ := id listed
    obtain ⟨first, second⟩ := missing (by rw [found]; exact nofun)
    exact iff_of_false first second
  | some found =>
    obtain ⟨-, same, -⟩ := alone.greatest found rfl
    obtain ⟨-, admitted, below⟩ := resolves.greatest found rfl
    rw [same] at admitted below
    constructor
    · intro holds
      have up := versionCompare_above (a := v) (b := single)
      have down := versionCompare_above (a := single) (b := v)
      have high := below v listed holds
      have low := above v holds
      exact Version.key_injective (by omega)
    · rintro rfl
      exact admitted

/-- `registry_resolve_constraint` finds the greatest version that satisfies the constraint exactly
if the comparisons are `<= v <`, or the version that the text begins with is the only one of the
package that satisfies it. -/
theorem registryResolveConstraint_greatest_iff {registry : Registry}
    (sorted : registry.NonAscending) (author name : String) (c : Constraint) :
    Resolves registry author name c.Satisfies
        (registryResolveConstraint registry author name c.text) ↔
      c.Supported ∨
        ∀ v, registry.Lists author name v → (c.Satisfies v ↔ v = c.lower) := by
  have read := registryResolveConstraint_spec sorted author name c.text
  by_cases supported : c.Supported
  · obtain ⟨range, parsed, members⟩ := (accepted_iff c).mpr supported
    refine iff_of_true (read.congr fun v _ => ?_) (.inl supported)
    unfold Admits
    rw [parsed]
    simp [members]
  · have alone := read.congr fun v _ => admits_unsupported supported v
    rw [or_iff_right supported]
    constructor
    · exact alone.same fun v => Constraint.Satisfies.lower_le
    · exact fun same => alone.congr fun v listed => (same v listed).symm

/-- Two versions of one package. -/
def coreRegistry : Registry :=
  { entries := [{ author := "elm", name := "core", versions := [⟨1, 0, 5⟩, ⟨1, 0, 0⟩] }]
    sinceCount := 2 }

theorem coreRegistry_nonAscending : coreRegistry.NonAscending := by
  unfold Registry.NonAscending
  decide

theorem registryResolveConstraint_greatest_core :
    let c := Constraint.between ⟨1, 0, 0⟩ .le .lt ⟨2, 0, 0⟩
    Resolves coreRegistry "elm" "core" c.Satisfies
        (registryResolveConstraint coreRegistry "elm" "core" c.text) ↔
      c.Supported ∨ ∀ v, coreRegistry.Lists "elm" "core" v → (c.Satisfies v ↔ v = c.lower) :=
  registryResolveConstraint_greatest_iff coreRegistry_nonAscending "elm" "core" _

/-- Of three versions between 1.0.0 and 2.0.0 the least one is found. -/
theorem registryResolveConstraint_greatest_fails :
    let registry : Registry :=
      { entries := [{ author := "elm", name := "core",
                      versions := [⟨2, 0, 0⟩, ⟨1, 5, 0⟩, ⟨1, 0, 0⟩] }]
        sinceCount := 3 }
    let c := Constraint.between ⟨1, 0, 0⟩ .le .le ⟨2, 0, 0⟩
    registry.NonAscending ∧ c.text = "1.0.0 <= v <= 2.0.0" ∧
      registryResolveConstraint registry "elm" "core" c.text = some ⟨1, 0, 0⟩ ∧
      ¬ Resolves registry "elm" "core" c.Satisfies
        (registryResolveConstraint registry "elm" "core" c.text) := by
  intro registry c
  have found : registryResolveConstraint registry "elm" "core" c.text = some ⟨1, 0, 0⟩ := by decide
  refine ⟨by unfold Registry.NonAscending; decide, by decide, found, fun resolves => ?_⟩
  obtain ⟨-, -, above⟩ := resolves.greatest _ found
  have listed : registry.Lists "elm" "core" ⟨2, 0, 0⟩ := ⟨_, rfl, List.mem_cons_self⟩
  exact absurd (above ⟨2, 0, 0⟩ listed ⟨by decide, by decide⟩) (by decide)

end ElmWrap
