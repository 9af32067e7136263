import ElmWrap.Solver.Closed

/-!
# Several packages at once

`solver_add_packages` solves for each package against the same `elm.json` and
merges the plans. What the merged plan leaves behind is closed as far as the
single runs agree on the versions they select.
-/

namespace ElmWrap

/-! ## Merging plans -/

theorem installPlanMergeStep_eq {dest : InstallPlan} {change : PackageChange}
    (new : change.newVersion ≠ none) (fresh : ¬ dest.Changes change.name) :
    installPlanMergeStep dest change = dest ++ [change] := by
  unfold installPlanMergeStep installPlanAddChange
  rw [if_neg, if_neg fun both => new both.2]
  · rfl
  · intro known
    obtain ⟨c, member, same⟩ := List.any_eq_true.mp known
    exact fresh ⟨c, member, of_decide_eq_true same⟩

theorem installPlanMergeStep_known {dest : InstallPlan} {change : PackageChange}
    (known : dest.Changes change.name) : installPlanMergeStep dest change = dest := by
  unfold installPlanMergeStep
  obtain ⟨c, member, same⟩ := known
  rw [if_pos (List.any_eq_true.mpr ⟨c, member, decide_eq_true same⟩)]

/-- Merging keeps the changes that are there, adds none but the source's, and has
one for every package of either plan. -/
theorem installPlanMerge_spec :
    ∀ (source dest : InstallPlan), (∀ c ∈ source, c.newVersion ≠ none) →
      (dest.map PackageChange.name).Nodup →
      ((installPlanMerge dest source).map PackageChange.name).Nodup ∧
        (∀ c ∈ installPlanMerge dest source, c ∈ dest ∨ c ∈ source) ∧
        (∀ c ∈ dest, c ∈ installPlanMerge dest source) ∧
        ∀ c ∈ source, (installPlanMerge dest source).Changes c.name := by
  intro source
  induction source with
  | nil =>
    intro dest _ nodup
    exact ⟨nodup, fun c on => Or.inl on, fun c on => on, by simp⟩
  | cons change rest ih =>
    intro dest new nodup
    have later : ∀ c ∈ rest, c.newVersion ≠ none :=
      fun c member => new c (List.mem_cons_of_mem _ member)
    have unfolds : installPlanMerge dest (change :: rest) =
        installPlanMerge (installPlanMergeStep dest change) rest := rfl
    rw [unfolds]
    by_cases known : dest.Changes change.name
    · rw [installPlanMergeStep_known known]
      obtain ⟨unique, from_, keeps, covers⟩ := ih dest later nodup
      refine ⟨unique, fun c on => ?_, keeps, fun c on => ?_⟩
      · exact (from_ c on).imp_right (List.mem_cons_of_mem _)
      · rcases List.mem_cons.mp on with rfl | on
        · obtain ⟨d, member, same⟩ := known
          exact ⟨d, keeps d member, same⟩
        · exact covers c on
    · rw [installPlanMergeStep_eq (new change List.mem_cons_self) known]
      have fresh : ((dest ++ [change]).map PackageChange.name).Nodup := by
        rw [List.map_append]
        refine List.nodup_append.mpr ⟨nodup, List.nodup_singleton _, ?_⟩
        intro a on b last same
        obtain ⟨c, member, named⟩ := List.mem_map.mp on
        have named' : change.name = b := (List.mem_singleton.mp last).symm
        exact known ⟨c, member, named.trans (same.trans named'.symm)⟩
      obtain ⟨unique, from_, keeps, covers⟩ := ih (dest ++ [change]) later fresh
      refine ⟨unique, fun c on => ?_, fun c on => ?_, fun c on => ?_⟩
      · rcases from_ c on with old | on
        · rcases List.mem_append.mp old with old | last
          · exact Or.inl old
          · rw [List.mem_singleton.mp last]
            exact Or.inr List.mem_cons_self
        · exact Or.inr (List.mem_cons_of_mem _ on)
      · exact keeps c (List.mem_append_left _ on)
      · rcases List.mem_cons.mp on with rfl | on
        · exact ⟨c, keeps c (List.mem_append_right _ (List.mem_singleton_self c)), rfl⟩
        · exact covers c on

theorem mergedPlan_nil (currentPackages : PackageMap) : MergedPlan currentPackages [] [] :=
  ⟨List.nodup_nil, by simp, by simp⟩

/-- Merging the plan for one more selection. -/
theorem MergedPlan.merge {currentPackages : PackageMap}
    {selections : List (List (PackageName × Version))} {combined plan : InstallPlan}
    (merged : MergedPlan currentPackages selections combined)
    {selected : List (PackageName × Version)}
    (single : MergedPlan currentPackages [selected] plan) :
    MergedPlan currentPackages (selections ++ [selected]) (installPlanMerge combined plan) := by
  obtain ⟨unique, from_, keeps, covers⟩ :=
    installPlanMerge_spec plan combined single.new merged.nodup
  refine ⟨unique, fun c on => ?_, fun s on p member c change => ?_⟩
  · rcases from_ c on with old | new
    · obtain ⟨s, on, rest⟩ := merged.source c old
      exact ⟨s, List.mem_append_left _ on, rest⟩
    · obtain ⟨s, on, rest⟩ := single.source c new
      exact ⟨s, List.mem_append_right _ on, rest⟩
  · rcases List.mem_append.mp on with old | new
    · obtain ⟨d, there, same⟩ := merged.covers s old p member c change
      exact ⟨d, keeps d there, same⟩
    · obtain ⟨d, there, same⟩ := single.covers s new p member c change
      rw [← same]
      exact covers d there

/-! ## The single runs -/

/-- The runs of `solver_add_packages`, when all of them succeed, and the plan
merged from theirs. -/
theorem solveEach_ok {solve : PackageVersionSpec → Option SolverOutcome}
    {currentPackages : PackageMap} {plan : InstallPlan} :
    ∀ (packages : List PackageVersionSpec) {selections : List (List (PackageName × Version))}
      {combined : InstallPlan},
      (∀ spec ∈ packages, ∀ outcome, solve spec = some outcome → outcome.result = .ok →
        MergedPlan currentPackages [outcome.selected] outcome.plan) →
      MergedPlan currentPackages selections combined →
      solveEach solve packages combined = some (.ok, plan) →
      ∃ outcomes : List SolverOutcome,
        List.Forall₂ (fun spec outcome => solve spec = some outcome ∧ outcome.result = .ok)
          packages outcomes ∧
        MergedPlan currentPackages (selections ++ outcomes.map SolverOutcome.selected) plan := by
  intro packages
  induction packages with
  | nil =>
    intro selections combined _ merged ran
    cases ran
    exact ⟨[], .nil, by simpa using merged⟩
  | cons spec rest ih =>
    intro selections combined single merged ran
    unfold solveEach at ran
    split at ran
    · cases ran
    · rename_i outcome solved
      split at ran
      · rename_i failed
        have result := congrArg Prod.fst (Option.some.inj ran)
        exact absurd result failed
      · rename_i succeeded
        have ok : outcome.result = .ok := not_not.mp succeeded
        have next := merged.merge (single spec List.mem_cons_self outcome solved ok)
        obtain ⟨outcomes, runs, all⟩ :=
          ih (fun s on => single s (List.mem_cons_of_mem _ on)) next ran
        refine ⟨outcome :: outcomes, .cons ⟨solved, ok⟩ runs, ?_⟩
        simpa using all

/-- Two of the runs select different versions of the package. -/
def RunsDisagree (fuel : Nat) (state : SolverState) (elmJson : ElmJson)
    (packages : List PackageVersionSpec) (isTest upgradeAll : Bool) (name : PackageName) : Prop :=
  ∃ spec ∈ packages, ∃ spec' ∈ packages, ∃ outcome outcome',
    solverAddPackage fuel state elmJson (spec.request isTest upgradeAll) = some outcome ∧
      solverAddPackage fuel state elmJson (spec'.request isTest upgradeAll) = some outcome' ∧
      ∃ v v', (name, v) ∈ outcome.selected ∧ (name, v') ∈ outcome'.selected ∧ v ≠ v'

theorem solvedMaps_request (spec : PackageVersionSpec) (isTest upgradeAll : Bool) :
    solvedMaps (spec.request isTest upgradeAll) = pinnedMaps isTest := by
  unfold solvedMaps
  rw [if_neg (by simp [PackageVersionSpec.request])]
  rfl

theorem solverAddPackages_ok {fuel : Nat} {state : SolverState} {elmJson : ElmJson}
    {packages : List PackageVersionSpec} {isTest upgradeAll : Bool} {plan : InstallPlan}
    (solved : solverAddPackages fuel state elmJson packages isTest upgradeAll = some (.ok, plan)) :
    packages ≠ [] ∧ solveEach
      (fun spec => solverAddPackage fuel state elmJson (spec.request isTest upgradeAll))
      packages [] = some (.ok, plan) := by
  unfold solverAddPackages at solved
  split at solved
  · cases solved
  · rename_i nonempty
    refine ⟨fun empty => nonempty (by rw [empty]; rfl), ?_⟩
    split at solved
    · exact solved
    · cases solved

theorem forall₂_right {α β : Type} {R : α → β → Prop} {left : List α} {right : List β}
    (related : List.Forall₂ R left right) {b : β} (member : b ∈ right) : ∃ a ∈ left, R a b :=
  forall₂_left related.flip member

/-- If `solver_add_packages` succeeds for a closed application that lists fewer
packages than the solver takes requirements, the merged plan can be applied, and
the result lists every requested package and meets every reported dependency of
every listed package, unless the package was bypassed or two of the runs
disagree on the dependency. -/
theorem solverAddPackages_closed {fuel : Nat} {state : SolverState} {elmJson : ElmJson}
    {packages : List PackageVersionSpec} {isTest upgradeAll : Bool} {plan : InstallPlan}
    (requested : List PackageName) (app : elmJson.type = .application) (agrees : elmJson.Agrees)
    (closed : elmJson.Closed state.listing.entries)
    (fits : elmJson.entryCount < pgDependencyBuffer)
    (solved : solverAddPackages fuel state elmJson packages isTest upgradeAll = some (.ok, plan))
    (once : ∀ c ∈ plan, elmJson.ListsOnce c.name) :
    ∃ elmJson', applyPlan requested isTest elmJson plan = some elmJson' ∧
      (∀ spec ∈ packages, ∃ p ∈ elmJson'.packages, p.name = spec.name) ∧
      ∀ p ∈ elmJson'.packages, ∀ v ∈ pgVersionParse p.version,
        ∀ q ∈ state.listing.reported p.name v,
          elmJson'.Meets q ∨ Bypassed elmJson (pinnedMaps isTest) plan p q ∨
            RunsDisagree fuel state elmJson packages isTest upgradeAll q.name := by
  obtain ⟨nonempty, ran⟩ := solverAddPackages_ok solved
  have added : ∀ (spec : PackageVersionSpec) (outcome : SolverOutcome),
      solverAddPackage fuel state elmJson (spec.request isTest upgradeAll) = some outcome →
        outcome.result = .ok →
          AddedTo state.listing elmJson (spec.request isTest upgradeAll) outcome :=
    fun spec outcome run ok => solverAddPackage_ok app fits run ok
  obtain ⟨outcomes, runs, merged⟩ := solveEach_ok packages
    (fun spec _ outcome run ok => mergedPlan_single (added spec outcome run ok).selection.nodup
      (added spec outcome run ok).plan)
    (mergedPlan_nil (collectCurrentPackages elmJson)) ran
  rw [List.nil_append] at merged
  have selection : ∀ s ∈ outcomes.map SolverOutcome.selected, state.listing.Selection s := by
    intro s on
    obtain ⟨outcome, member, rfl⟩ := List.mem_map.mp on
    obtain ⟨spec, -, run, ok⟩ := forall₂_right runs member
    exact (added spec outcome run ok).selection
  obtain ⟨elmJson', applied, applies⟩ :=
    applyPlan_app requested isTest plan app merged.nodup merged.new
  refine ⟨elmJson', applied, fun spec asked => ?_, fun p lists v parsed q depends => ?_⟩
  · obtain ⟨outcome, member, run, ok⟩ := forall₂_left runs asked
    obtain ⟨v, chosen⟩ := (added spec outcome run ok).requested
    by_cases changes : plan.Changes spec.name
    · obtain ⟨c, planned, named⟩ := changes
      obtain ⟨version, new⟩ := Option.ne_none_iff_exists'.mp (merged.new c planned)
      exact ⟨_, ElmJson.lists_iff.mp (applies.written c planned version new), named⟩
    · cases change : plannedChange (collectCurrentPackages elmJson) (spec.name, v) with
      | some c =>
        have covered := merged.covers _ (List.mem_map_of_mem member) _ chosen c change
        exact absurd covered changes
      | none =>
        obtain ⟨existing, found, -⟩ := plannedChange_none change
        obtain ⟨current, same⟩ := packageMapFind_some found
        have listed := (collectCurrentPackages_spec elmJson).1 existing current
        refine ⟨existing, ElmJson.lists_iff.mp ?_, same⟩
        rw [applies.lists (by rw [same]; exact changes)]
        exact listed
  · rcases merged.closed selection agrees closed once applies (ElmJson.lists_iff.mpr lists) parsed
        depends with
      met | ⟨unselected, unchanged, changes⟩ | ⟨s, on, s', on', w, w', left, right, ne⟩
    · exact Or.inl met
    · refine Or.inr (Or.inl ⟨?_, unchanged, changes⟩)
      obtain ⟨spec, asked⟩ := List.exists_mem_of_ne_nil packages nonempty
      obtain ⟨outcome, member, run, ok⟩ := forall₂_left runs asked
      rw [← solvedMaps_request spec isTest upgradeAll]
      exact (added spec outcome run ok).bypassed (unselected _ (List.mem_map_of_mem member))
    · obtain ⟨outcome, member, rfl⟩ := List.mem_map.mp on
      obtain ⟨outcome', member', rfl⟩ := List.mem_map.mp on'
      obtain ⟨spec, asked, run, -⟩ := forall₂_right runs member
      obtain ⟨spec', asked', run', -⟩ := forall₂_right runs member'
      exact Or.inr (Or.inr ⟨spec, asked, spec', asked', outcome, outcome', run, run', w, w',
        left, right, ne⟩)

/-- Two packages with what they need. -/
def installHttpAndJson : List PackageVersionSpec :=
  [⟨elmHttpPackage, none⟩, ⟨elmJsonPackage, none⟩]

theorem solverAddPackages_closed_http : ∃ plan elmJson',
    solverAddPackages 80 sampleState (sampleApp none none) installHttpAndJson false false =
        some (.ok, plan) ∧
      applyPlan [elmHttpPackage, elmJsonPackage] false (sampleApp none none) plan =
        some elmJson' ∧
      (∀ spec ∈ installHttpAndJson, ∃ p ∈ elmJson'.packages, p.name = spec.name) ∧
      ∀ p ∈ elmJson'.packages, ∀ v ∈ pgVersionParse p.version,
        ∀ q ∈ sampleState.listing.reported p.name v,
          elmJson'.Meets q ∨ Bypassed (sampleApp none none) (pinnedMaps false) plan p q ∨
            RunsDisagree 80 sampleState (sampleApp none none) installHttpAndJson false false
              q.name := by
  have solved : solverAddPackages 80 sampleState (sampleApp none none) installHttpAndJson false
      false = some (.ok, [⟨elmHttpPackage, none, some "2.0.0"⟩,
        ⟨elmJsonPackage, none, some "1.1.0"⟩]) := by decide +kernel
  have agrees : (sampleApp none none).Agrees := by decide
  obtain ⟨elmJson', rest⟩ := solverAddPackages_closed [elmHttpPackage, elmJsonPackage] rfl agrees
    (by decide) (by decide) solved (by decide)
  exact ⟨_, elmJson', solved, rest⟩

/-- `elm/http` and `elm-explorations/test` need different versions of `elm/json`:
each run by itself finds one, and the first one stays. -/
theorem solverAddPackages_mixes_versions :
    ¬ ∀ (fuel : Nat) (state : SolverState) (elmJson elmJson' : ElmJson)
      (packages : List PackageVersionSpec) (isTest upgradeAll : Bool) (plan : InstallPlan),
        elmJson.type = .application → elmJson.Agrees → elmJson.Closed state.listing.entries →
        solverAddPackages fuel state elmJson packages isTest upgradeAll = some (.ok, plan) →
        applyPlan (packages.map PackageVersionSpec.name) isTest elmJson plan = some elmJson' →
        elmJson'.Closed state.listing.entries := by
  intro claim
  let packages : List PackageVersionSpec := [⟨elmHttpPackage, none⟩, ⟨elmTestPackage, none⟩]
  let plan : InstallPlan := [⟨elmHttpPackage, none, some "2.0.0"⟩,
    ⟨elmJsonPackage, none, some "1.1.0"⟩, ⟨elmTestPackage, none, some "1.0.0"⟩]
  have solved : solverAddPackages 80 sampleState (sampleApp none none) packages false false =
      some (.ok, plan) := by decide +kernel
  have facts : (applyPlan (packages.map PackageVersionSpec.name) false (sampleApp none none)
      plan).map (fun elmJson' => decide (elmJson'.Closed sampleState.listing.entries)) =
        some false := by decide
  obtain ⟨elmJson', applied, open_⟩ := Option.map_eq_some_iff.mp facts
  exact of_decide_eq_false open_ (claim 80 sampleState (sampleApp none none) elmJson' packages
    false false plan rfl (by decide) (by decide) solved applied)

end ElmWrap
