import Mathlib.Data.List.Perm.Basic
import ElmWrap.Build.Batches

/-!
# The build order

Every module is visited, so `compute_module_build_order` never finds a cycle. A module
stands behind its dependencies, except those that lead back to it.
-/

namespace ElmWrap

open Lib

theorem mem_sortDeps {mod : BuildModule} {dep : String} :
    dep ∈ mod.sortDeps.deps ↔ dep ∈ mod.deps :=
  List.mem_mergeSort

/-! ## The search -/

/-- A module has the other one among its dependencies. -/
def DependsOn (modules : List BuildModule) (name dep : String) : Prop :=
  ∃ mod ∈ modules, mod.name = name ∧ dep ∈ mod.deps

/-- The name at an index. -/
def nameAt (modules : List BuildModule) (idx : Nat) : String :=
  modules[idx]?.elim "" BuildModule.name

theorem mem_depIndices {modules : List BuildModule} {idx other : Nat} :
    other ∈ depIndices modules idx ↔ ∃ mod, modules[idx]? = some mod ∧ ∃ dep ∈ mod.deps,
      findModuleIndex modules dep = some other := by
  unfold depIndices
  cases modules[idx]? with
  | none => simp
  | some mod =>
    simp only [Option.elim_some, List.mem_filterMap, mem_sortDeps]
    simp

theorem findModuleIndex_some {modules : List BuildModule} {name : String} {idx : Nat}
    (found : findModuleIndex modules name = some idx) :
    ∃ mod, modules[idx]? = some mod ∧ mod.name = name := by
  obtain ⟨bound, here, -⟩ := List.findIdx?_eq_some_iff_getElem.mp found
  exact ⟨modules[idx], List.getElem?_eq_getElem bound, by simpa using here⟩

theorem findModuleIndex_mem {modules : List BuildModule} {name : String}
    (member : name ∈ modules.map BuildModule.name) :
    ∃ idx, findModuleIndex modules name = some idx := by
  obtain ⟨mod, on, named⟩ := List.mem_map.mp member
  apply Option.isSome_iff_exists.mp
  unfold findModuleIndex
  rw [List.findIdx?_isSome, List.any_eq_true]
  exact ⟨mod, on, by simpa using named⟩

theorem depIndices_dependsOn {modules : List BuildModule} {idx other : Nat}
    (edge : PostOrder.Edge (depIndices modules) idx other) :
    DependsOn modules (nameAt modules idx) (nameAt modules other) := by
  obtain ⟨mod, at_, dep, member, found⟩ := mem_depIndices.mp edge
  obtain ⟨target, there, named⟩ := findModuleIndex_some found
  unfold nameAt
  rw [at_, there, Option.elim_some, Option.elim_some, named]
  exact ⟨mod, List.mem_of_getElem? at_, rfl, member⟩

theorem depIndices_closed (modules : List BuildModule) :
    ∀ idx ∈ List.range modules.length, ∀ other ∈ depIndices modules idx,
      other ∈ List.range modules.length := by
  intro idx _ other member
  obtain ⟨_, _, dep, _, found⟩ := mem_depIndices.mp member
  obtain ⟨target, there, _⟩ := findModuleIndex_some found
  exact List.mem_range.mpr (List.getElem?_eq_some_iff.mp there).1

/-- The modules at all indices. -/
theorem filterMap_range (modules : List BuildModule) :
    ((List.range modules.length).filterMap fun idx => modules[idx]?.map BuildModule.sortDeps) =
      modules.map BuildModule.sortDeps := by
  induction modules with
  | nil => rfl
  | cons mod rest ih =>
    have first : (mod :: rest)[0]?.map BuildModule.sortDeps = some mod.sortDeps := rfl
    rw [List.length_cons, List.range_succ_eq_map, List.filterMap_cons, first,
      List.filterMap_map, List.map_cons]
    exact congrArg _ ih

/-- What `compute_module_build_order` leaves. -/
structure Ordered (modules ordered : List BuildModule) : Prop where
  perm : ordered.Perm (modules.map BuildModule.sortDeps)
  behind : ∀ mod ∈ ordered, ∀ dep ∈ mod.deps, dep ∈ modules.map BuildModule.name →
    PostOrder.Before (ordered.map BuildModule.name) dep mod.name ∨
      Relation.TransGen (DependsOn modules) dep mod.name

/-- The order of a search over the indices is an order of the modules. -/
theorem ordered_of_search {modules : List BuildModule} {search : PostOrder.Search Nat}
    (sorted : search.Sorted (depIndices modules) (List.range modules.length))
    (all : search.order.Perm (List.range modules.length)) :
    Ordered modules
      (search.order.filterMap fun idx => modules[idx]?.map BuildModule.sortDeps) where
  perm := by
    rw [← filterMap_range]
    exact all.filterMap _
  behind := by
    intro mod member dep listed among
    obtain ⟨idx, on, at_⟩ := List.mem_filterMap.mp member
    obtain ⟨original, there, rfl⟩ := Option.map_eq_some_iff.mp at_
    obtain ⟨other, found⟩ := findModuleIndex_mem among
    obtain ⟨target, here, named⟩ := findModuleIndex_some found
    have edge : other ∈ depIndices modules idx :=
      mem_depIndices.mpr ⟨original, there, dep, mem_sortDeps.mp listed, found⟩
    rcases sorted.behind idx on other edge with before | back
    · left
      rw [List.map_filterMap, ← named]
      apply before.filterMap
      · rw [here]
        rfl
      · rw [there]
        rfl
    · right
      have lifted : Relation.TransGen (DependsOn modules) (nameAt modules other)
          (nameAt modules idx) :=
        Relation.TransGen.lift (nameAt modules) (fun _ _ edge => depIndices_dependsOn edge) _ _ back
      unfold nameAt at lifted
      rw [here, there, Option.elim_some, Option.elim_some, named] at lifted
      exact lifted

theorem Ordered.of_perm {modules other ordered : List BuildModule} (perm : other.Perm modules)
    (ordered_ : Ordered other ordered) : Ordered modules ordered where
  perm := ordered_.perm.trans (perm.map _)
  behind := by
    intro mod member dep listed among
    rcases ordered_.behind mod member dep listed ((perm.map _).mem_iff.mpr among) with before | back
    · exact .inl before
    · right
      refine Relation.TransGen.mono ?_ _ _ back
      intro name dep ⟨mod, on, named, listed⟩
      exact ⟨mod, perm.mem_iff.mp on, named, listed⟩

theorem computeModuleBuildOrder_ordered (plan : BuildPlan) :
    ∃ ordered, computeModuleBuildOrder plan = some { plan with modules := ordered } ∧
      Ordered plan.modules ordered := by
  unfold computeModuleBuildOrder
  split
  · rename_i empty
    rw [List.isEmpty_iff] at empty
    refine ⟨plan.modules, rfl, ?_⟩
    rw [empty]
    exact ⟨.nil, fun mod member => absurd member List.not_mem_nil⟩
  · have perm := LeastFirst.exchangeSort_perm BuildModule.name plan.modules.length plan.modules
    dsimp only
    generalize LeastFirst.exchangeSort BuildModule.name plan.modules.length plan.modules = modules
      at perm ⊢
    obtain ⟨sorted, all⟩ := PostOrder.search_spec (depIndices_closed modules)
    have every : (PostOrder.search (depIndices modules) (List.range modules.length).length
        (List.range modules.length)).order.Perm (List.range modules.length) :=
      (List.perm_ext_iff_of_nodup sorted.nodup List.nodup_range).mpr all
    have length := every.length_eq
    have ordered := ordered_of_search sorted every
    rw [List.length_range] at length ordered
    exact ⟨_, if_neg (not_not.mpr length), ordered.of_perm perm⟩

end ElmWrap
