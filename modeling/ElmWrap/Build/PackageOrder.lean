import ElmWrap.PackageName
import ElmWrap.Lib.LeastFirst
import Mathlib.Data.String.Basic

/-!
# The build order of the packages

`compute_package_build_order` of `build_driver.c`: the dependencies of every
package are read and cut down to the packages of the plan, the packages are
sorted by name, and the first package without an open dependency is placed until
all are placed or every package that is left waits for another one.
-/

namespace ElmWrap

open Lib

/-! ## Packages and their dependencies -/

/-- `BuildPackage`, with the fields that are read in the computation of a plan. -/
structure BuildPackage where
  name : String
  version : String
  packagePath : String
  deps : List String
deriving DecidableEq, Repr

/-- The `author/name` of a package in a buffer of 256 bytes. -/
def packageNameBuf (author name : String) : String :=
  String.ofList ((author.toList ++ '/' :: name.toList).take 255)

/-- The package dependencies in the `elm.json` of a package, given by author, name and version;
`none` where it is not read or is no package. -/
abbrev PackageDependencies := String → String → String → Option (List (String × String))

/-- The dependencies that are added to a package: those in the package set. -/
def readDeps (read : PackageDependencies) (packages : List BuildPackage) (pkg : BuildPackage) :
    List String :=
  match cutAt '/' pkg.name.toList with
  | none => []
  | some (author, name) =>
    match read (String.ofList author) (String.ofList name) pkg.version with
    | none => []
    | some deps => (deps.map fun dep => packageNameBuf dep.1 dep.2).filter fun dep =>
      packages.any fun other => other.name = dep

/-- The first loop of `compute_package_build_order`. -/
def collectDeps (read : PackageDependencies) (packages : List BuildPackage) :
    List BuildPackage :=
  packages.map fun pkg => { pkg with deps := pkg.deps ++ readDeps read packages pkg }

/-! ## Kahn's algorithm -/

/-- A package with its places in `in_degree` and `processed`. -/
structure Slot where
  pkg : BuildPackage
  inDegree : Int
  processed : Bool
deriving DecidableEq, Repr

/-- The in-degrees before any package is placed. -/
def initialSlots (packages : List BuildPackage) : List Slot :=
  packages.map fun pkg => {
    pkg := pkg
    inDegree := (pkg.deps.filter fun dep => packages.any fun other => other.name = dep).length
    processed := false }

/-- The first package that is ready, which is marked as processed. -/
def takeReady : List Slot → Option (BuildPackage × List Slot)
  | [] => none
  | slot :: rest =>
    if !slot.processed && slot.inDegree = 0 then
      some (slot.pkg, { slot with processed := true } :: rest)
    else (takeReady rest).map fun p => (p.1, slot :: p.2)

/-- A package is placed: the packages that list it wait for one package less. -/
def release (pkg : BuildPackage) (slots : List Slot) : List Slot :=
  slots.map fun slot =>
    if slot.processed then slot
    else if slot.pkg.deps.contains pkg.name then { slot with inDegree := slot.inDegree - 1 }
    else slot

/-- The loop over the places of the order; `none` where a cycle is reported. -/
def placePackages : Nat → List Slot → Option (List BuildPackage)
  | 0, _ => some []
  | n + 1, slots =>
    match takeReady slots with
    | none => none
    | some (next, slots) => (placePackages n (release next slots)).map fun order => next :: order

/-- `compute_package_build_order`; `none` where it returns false. -/
def computePackageBuildOrder (read : PackageDependencies) (packages : List BuildPackage) :
    Option (List BuildPackage) :=
  if packages.isEmpty then some packages
  else
    let packages := collectDeps read packages
    let packages := LeastFirst.exchangeSort BuildPackage.name packages.length packages
    placePackages packages.length (initialSlots packages)

/-! ## One package is placed -/

/-- A package depends on another one. -/
def BuildPackage.DependsOn (pkg dep : BuildPackage) : Prop := dep.name ∈ pkg.deps

/-- The dependencies of a package in the set that are not placed yet. -/
def openDeps (names placed : List String) (pkg : BuildPackage) : List String :=
  pkg.deps.filter fun dep => dep ∈ names ∧ dep ∉ placed

/-- The slots agree with the names that are placed. -/
structure Counted (names placed : List String) (slots : List Slot) : Prop where
  processed : ∀ slot ∈ slots, slot.processed = true ↔ slot.pkg.name ∈ placed
  inDegree : ∀ slot ∈ slots, slot.processed = false →
    slot.inDegree = (openDeps names placed slot.pkg).length

theorem takeReady_some {slots later : List Slot} {pkg : BuildPackage}
    (taken : takeReady slots = some (pkg, later)) :
    ∃ front slot back, slots = front ++ slot :: back ∧ slot.pkg = pkg ∧
      slot.processed = false ∧ slot.inDegree = 0 ∧
      (∀ other ∈ front, other.processed = true ∨ other.inDegree ≠ 0) ∧
      later = front ++ { slot with processed := true } :: back := by
  induction slots generalizing later with
  | nil => cases taken
  | cons slot slots ih =>
    unfold takeReady at taken
    split at taken
    · rename_i ready
      cases taken
      simp only [Bool.and_eq_true, Bool.not_eq_true', decide_eq_true_eq] at ready
      exact ⟨[], slot, slots, rfl, rfl, ready.1, ready.2, by simp, rfl⟩
    · rename_i waits
      obtain ⟨⟨next, rest⟩, found, same⟩ := Option.map_eq_some_iff.mp taken
      cases same
      obtain ⟨front, first, back, split, name, unprocessed, zero, others, marked⟩ := ih found
      refine ⟨slot :: front, first, back, by rw [split]; rfl, name, unprocessed, zero, ?_,
        by rw [marked]; rfl⟩
      intro other member
      rcases List.mem_cons.mp member with rfl | later
      · simp only [Bool.and_eq_true, Bool.not_eq_true', decide_eq_true_eq, not_and] at waits
        cases processed : other.processed with
        | true => exact Or.inl rfl
        | false => exact Or.inr (waits processed)
      · exact others other later

theorem takeReady_none {slots : List Slot} (stuck : takeReady slots = none) :
    ∀ slot ∈ slots, slot.processed = true ∨ slot.inDegree ≠ 0 := by
  induction slots with
  | nil => simp
  | cons slot slots ih =>
    unfold takeReady at stuck
    split at stuck
    · cases stuck
    · rename_i waits
      intro other member
      rcases List.mem_cons.mp member with rfl | later
      · simp only [Bool.and_eq_true, Bool.not_eq_true', decide_eq_true_eq, not_and] at waits
        cases processed : other.processed with
        | true => exact Or.inl rfl
        | false => exact Or.inr (waits processed)
      · exact ih (Option.map_eq_none_iff.mp stuck) other later

/-- A package without open dependencies has its in-degree at zero. -/
theorem Counted.inDegree_zero {names placed : List String} {slots : List Slot}
    (counted : Counted names placed slots) {slot : Slot} (member : slot ∈ slots)
    (unprocessed : slot.processed = false) :
    slot.inDegree = 0 ↔ ∀ dep ∈ slot.pkg.deps, dep ∈ names → dep ∈ placed := by
  rw [counted.inDegree slot member unprocessed]
  simp only [Int.natCast_eq_zero, List.length_eq_zero_iff, openDeps, List.filter_eq_nil_iff,
    decide_eq_true_eq, not_and, not_not]

/-- One name more is placed: an open dependency less where it is listed. -/
theorem openDeps_place {names placed : List String} {name : String} (on : name ∈ names)
    (new : name ∉ placed) {pkg : BuildPackage} (nodup : pkg.deps.Nodup) :
    (openDeps names placed pkg).length =
      (openDeps names (placed ++ [name]) pkg).length + if name ∈ pkg.deps then 1 else 0 := by
  have keep : openDeps names (placed ++ [name]) pkg =
      (openDeps names placed pkg).filter (· != name) := by
    unfold openDeps
    rw [List.filter_filter]
    apply List.filter_congr
    intro dep _
    rw [Bool.eq_iff_iff]
    simp only [List.mem_append, List.mem_singleton, decide_eq_true_eq, Bool.and_eq_true, bne_iff_ne]
    tauto
  have distinct : (openDeps names placed pkg).Nodup := nodup.filter _
  have listed : name ∈ openDeps names placed pkg ↔ name ∈ pkg.deps := by
    simp [openDeps, new, on]
  rw [keep, ← List.Nodup.erase_eq_filter distinct, List.length_erase]
  by_cases member : name ∈ openDeps names placed pkg
  · rw [if_pos member, if_pos (listed.mp member)]
    have := List.length_pos_of_mem member
    omega
  · rw [if_neg member, if_neg (fun on => member (listed.mpr on)), Nat.add_zero]

/-- What one step does: the first package that is ready is placed, the slots agree with the names
placed then, and the packages stay. -/
theorem Counted.place {names placed : List String} {slots later : List Slot}
    (counted : Counted names placed slots)
    (packages : slots.map (fun slot => slot.pkg.name) = names) (unique : names.Nodup)
    (nodup : ∀ slot ∈ slots, slot.pkg.deps.Nodup) {pkg : BuildPackage}
    (taken : takeReady slots = some (pkg, later)) :
    Counted names (placed ++ [pkg.name]) (release pkg later) ∧
      (release pkg later).map Slot.pkg = slots.map Slot.pkg := by
  obtain ⟨front, slot, back, rfl, rfl, unprocessed, zero, -, rfl⟩ := takeReady_some taken
  have here : slot ∈ front ++ slot :: back := List.mem_append_right _ List.mem_cons_self
  have new : slot.pkg.name ∉ placed := by
    intro member
    rw [(counted.processed slot here).mpr member] at unprocessed
    cases unprocessed
  have on : slot.pkg.name ∈ names := by
    rw [← packages]
    exact List.mem_map_of_mem here
  -- the other slots have other names
  have others : ∀ other ∈ front ++ back, other.pkg.name ≠ slot.pkg.name := by
    rw [← packages, List.map_append, List.map_cons] at unique
    obtain ⟨-, tail, apart⟩ := List.nodup_append.mp unique
    intro other member same
    rcases List.mem_append.mp member with first | second
    · exact apart _ (List.mem_map_of_mem first) _ List.mem_cons_self same
    · exact (List.nodup_cons.mp tail).1 (same ▸ List.mem_map_of_mem second)
  -- what becomes of a slot
  have step : ∀ other ∈ front ++ { slot with processed := true } :: back,
      (other = { slot with processed := true } ∨
        other ∈ front ++ slot :: back ∧ other.pkg.name ≠ slot.pkg.name) := by
    intro other member
    rcases List.mem_append.mp member with first | second
    · exact Or.inr ⟨List.mem_append_left _ first, others other (List.mem_append_left _ first)⟩
    · rcases List.mem_cons.mp second with rfl | second
      · exact Or.inl rfl
      · exact Or.inr ⟨List.mem_append_right _ (List.mem_cons_of_mem _ second),
          others other (List.mem_append_right _ second)⟩
  refine ⟨⟨?_, ?_⟩, ?_⟩
  · intro released member
    obtain ⟨other, found, rfl⟩ := List.mem_map.mp member
    rcases step other found with rfl | ⟨old, differs⟩
    · simp
    · have before := counted.processed other old
      split
      · rename_i processed
        simp [before.mp processed, processed]
      · split <;> simp [before, differs]
  · intro released member pending
    obtain ⟨other, found, rfl⟩ := List.mem_map.mp member
    rcases step other found with rfl | ⟨old, differs⟩
    · simp at pending
    · cases processed : other.processed with
      | true =>
        rw [processed, if_pos rfl, processed] at pending
        cases pending
      | false =>
        have before := counted.inDegree other old processed
        have count := openDeps_place on new (nodup other old)
        simp only [Bool.false_eq_true, if_false, List.contains_iff_mem]
        split
        · rename_i listed
          rw [if_pos listed] at count
          simp only
          omega
        · rename_i unlisted
          rw [if_neg unlisted] at count
          omega
  · unfold release
    rw [List.map_map, List.map_append, List.map_append, List.map_cons, List.map_cons]
    have same : (Slot.pkg ∘ fun other : Slot =>
        if other.processed then other
        else if other.pkg.deps.contains slot.pkg.name then
          { other with inDegree := other.inDegree - 1 }
        else other) = Slot.pkg := by
      funext other
      simp only [Function.comp_apply]
      split
      · rfl
      · split <;> rfl
    rw [same]

/-! ## A whole run -/

/-- The package that comes next after the names placed: it is ready, and no other ready package
has a smaller name. -/
structure NextReady (packages : List BuildPackage) (placed : List String) (pkg : BuildPackage) :
    Prop where
  member : pkg ∈ packages
  new : pkg.name ∉ placed
  ready : ∀ dep ∈ pkg.deps, dep ∈ packages.map BuildPackage.name → dep ∈ placed
  least : ∀ other ∈ packages, other.name ∉ placed →
    (∀ dep ∈ other.deps, dep ∈ packages.map BuildPackage.name → dep ∈ placed) →
      pkg.name ≤ other.name

/-- Packages in the order of their names, with names and dependencies that do not repeat. -/
structure SortedPackages (packages : List BuildPackage) : Prop where
  unique : (packages.map BuildPackage.name).Nodup
  sorted : packages.Pairwise fun a b => a.name ≤ b.name
  lists : ∀ pkg ∈ packages, pkg.deps.Nodup

variable {packages : List BuildPackage}

theorem names_map {slots : List Slot} (same : slots.map Slot.pkg = packages) :
    slots.map (fun slot => slot.pkg.name) = packages.map BuildPackage.name := by
  rw [← same, List.map_map]
  rfl

theorem takeReady_next (sorted : SortedPackages packages) {placed : List String}
    {slots later : List Slot} (counted : Counted (packages.map BuildPackage.name) placed slots)
    (same : slots.map Slot.pkg = packages) {pkg : BuildPackage}
    (taken : takeReady slots = some (pkg, later)) : NextReady packages placed pkg := by
  obtain ⟨front, slot, back, rfl, rfl, unprocessed, zero, passed, -⟩ := takeReady_some taken
  have here : slot ∈ front ++ slot :: back := List.mem_append_right _ List.mem_cons_self
  refine ⟨?_, ?_, (counted.inDegree_zero here unprocessed).mp zero, ?_⟩
  · rw [← same]
    exact List.mem_map_of_mem here
  · intro placed
    rw [(counted.processed slot here).mpr placed] at unprocessed
    cases unprocessed
  · intro other member new ready
    rw [← same] at member
    obtain ⟨candidate, found, rfl⟩ := List.mem_map.mp member
    have pending : candidate.processed = false := by
      cases processed : candidate.processed with
      | false => rfl
      | true => exact absurd ((counted.processed candidate found).mp processed) new
    have free : candidate.inDegree = 0 := (counted.inDegree_zero found pending).mpr ready
    have order := sorted.sorted
    rw [← same, List.map_append, List.map_cons] at order
    obtain ⟨-, tail, -⟩ := List.pairwise_append.mp order
    rcases List.mem_append.mp found with first | second
    · rcases passed candidate first with processed | waits
      · rw [processed] at pending
        cases pending
      · exact absurd free waits
    · rcases List.mem_cons.mp second with rfl | second
      · exact le_refl _
      · exact (List.pairwise_cons.mp tail).1 _ (List.mem_map_of_mem second)

/-- Every place of an order that is found holds the package that comes next there. -/
theorem placePackages_some (sorted : SortedPackages packages) {n : Nat} {placed : List String}
    {slots : List Slot} (counted : Counted (packages.map BuildPackage.name) placed slots)
    (same : slots.map Slot.pkg = packages) {order : List BuildPackage}
    (found : placePackages n slots = some order) :
    order.length = n ∧ ∀ front pkg back, order = front ++ pkg :: back →
      NextReady packages (placed ++ front.map BuildPackage.name) pkg := by
  induction n generalizing placed slots order with
  | zero =>
    cases found
    refine ⟨rfl, fun front pkg back split => ?_⟩
    simp at split
  | succ n ih =>
    unfold placePackages at found
    split at found
    · cases found
    · rename_i next later taken
      obtain ⟨rest, placed_, rfl⟩ := Option.map_eq_some_iff.mp found
      have lists : ∀ slot ∈ slots, slot.pkg.deps.Nodup := fun slot member =>
        sorted.lists _ (same ▸ List.mem_map_of_mem member)
      obtain ⟨still, pkgs⟩ := counted.place (names_map same) sorted.unique lists taken
      obtain ⟨count, after⟩ := ih still (pkgs.trans same) placed_
      refine ⟨by rw [List.length_cons, count], fun front pkg back split => ?_⟩
      cases front with
      | nil =>
        cases split
        simpa using takeReady_next sorted counted same taken
      | cons first front =>
        cases split
        simpa using after front pkg back rfl

/-- Where no order is found, every package that is left waits for one that is left. -/
theorem placePackages_none (sorted : SortedPackages packages) {n : Nat} {placed : List String}
    {slots : List Slot} (counted : Counted (packages.map BuildPackage.name) placed slots)
    (same : slots.map Slot.pkg = packages) (left : placed.length + n = packages.length)
    (stuck : placePackages n slots = none) :
    ∃ placed : List String, placed.length < packages.length ∧ ∀ pkg ∈ packages,
      pkg.name ∉ placed →
        ∃ dep ∈ pkg.deps, dep ∈ packages.map BuildPackage.name ∧ dep ∉ placed := by
  induction n generalizing placed slots with
  | zero => cases stuck
  | succ n ih =>
    unfold placePackages at stuck
    split at stuck
    · rename_i waits
      refine ⟨placed, by omega, fun pkg member new => ?_⟩
      rw [← same] at member
      obtain ⟨slot, found, rfl⟩ := List.mem_map.mp member
      have pending : slot.processed = false := by
        cases processed : slot.processed with
        | false => rfl
        | true => exact absurd ((counted.processed slot found).mp processed) new
      rcases takeReady_none waits slot found with processed | open_
      · rw [processed] at pending
        cases pending
      · rw [ne_eq, counted.inDegree_zero found pending] at open_
        simp only [not_forall] at open_
        obtain ⟨dep, listed, on, missing⟩ := open_
        exact ⟨dep, listed, on, missing⟩
    · rename_i next later taken
      have lists : ∀ slot ∈ slots, slot.pkg.deps.Nodup := fun slot member =>
        sorted.lists _ (same ▸ List.mem_map_of_mem member)
      obtain ⟨still, pkgs⟩ := counted.place (names_map same) sorted.unique lists taken
      refine ih still (pkgs.trans same) ?_ (Option.map_eq_none_iff.mp stuck)
      rw [List.length_append, List.length_singleton]
      omega

/-! ## The order that is found -/

theorem initialSlots_counted (packages : List BuildPackage) :
    Counted (packages.map BuildPackage.name) [] (initialSlots packages) := by
  refine ⟨fun slot member => ?_, fun slot member _ => ?_⟩
  · obtain ⟨pkg, -, rfl⟩ := List.mem_map.mp member
    simp
  · obtain ⟨pkg, -, rfl⟩ := List.mem_map.mp member
    have same : (pkg.deps.filter fun dep => packages.any fun other => other.name = dep) =
        openDeps (packages.map BuildPackage.name) [] pkg := by
      unfold openDeps
      apply List.filter_congr
      intro dep _
      rw [Bool.eq_iff_iff]
      simp
    simp only [same]

theorem initialSlots_packages (packages : List BuildPackage) :
    (initialSlots packages).map Slot.pkg = packages := by
  unfold initialSlots
  rw [List.map_map]
  exact List.map_id packages

theorem eq_of_name (unique : (packages.map BuildPackage.name).Nodup) {a b : BuildPackage}
    (first : a ∈ packages) (second : b ∈ packages) (same : a.name = b.name) : a = b :=
  List.inj_on_of_nodup_map unique first second same

/-- The places of a run, each with the package that comes next there, are an order. -/
theorem order_of_next (unique : (packages.map BuildPackage.name).Nodup)
    {order : List BuildPackage} (count : order.length = packages.length)
    (next : ∀ front pkg back, order = front ++ pkg :: back →
      NextReady packages (front.map BuildPackage.name) pkg) :
    LeastFirst.Order BuildPackage.DependsOn BuildPackage.name packages order := by
  have inside : ∀ pkg ∈ order, pkg ∈ packages := by
    intro pkg member
    obtain ⟨front, back, split⟩ := List.append_of_mem member
    exact (next front pkg back split).member
  have placed : ∀ {front pkg back}, order = front ++ pkg :: back → ∀ other ∈ packages,
      (other.name ∈ front.map BuildPackage.name ↔ other ∈ front) := by
    intro front pkg back split other member
    constructor
    · intro named
      obtain ⟨twin, on, same⟩ := List.mem_map.mp named
      have known := inside twin (by rw [split]; exact List.mem_append_left _ on)
      rw [← eq_of_name unique known member same]
      exact on
    · exact List.mem_map_of_mem
  have distinct : order.Nodup := by
    refine LeastFirst.nodup_of_new fun front pkg back split member => ?_
    exact (next front pkg back split).new (List.mem_map_of_mem member)
  refine ⟨?_, ?_, ?_⟩
  · exact (List.subperm_of_subset distinct inside).perm_of_length_le (le_of_eq count.symm)
  · intro front pkg back split dep on depends
    have named := (next front pkg back split).ready dep.name depends (List.mem_map_of_mem on)
    exact (placed split dep on).mp named
  · intro front pkg back split other on new ready
    refine (next front pkg back split).least other on ?_ ?_
    · intro named
      exact new ((placed split other on).mp named)
    · intro dep listed known
      obtain ⟨target, member, rfl⟩ := List.mem_map.mp known
      exact List.mem_map_of_mem (ready target member listed)

theorem collectDeps_names (read : PackageDependencies) (packages : List BuildPackage) :
    (collectDeps read packages).map BuildPackage.name = packages.map BuildPackage.name := by
  unfold collectDeps
  rw [List.map_map]
  rfl

/-- The run finds an order when there is no cycle, and only then. -/
theorem placePackages_order (sorted : SortedPackages packages) :
    ((∃ order, placePackages packages.length (initialSlots packages) = some order) ↔
      LeastFirst.Acyclic BuildPackage.DependsOn packages) ∧
    ∀ order, placePackages packages.length (initialSlots packages) = some order →
      LeastFirst.Order BuildPackage.DependsOn BuildPackage.name packages order := by
  have counted := initialSlots_counted packages
  have same := initialSlots_packages packages
  have found : ∀ order, placePackages packages.length (initialSlots packages) = some order →
      LeastFirst.Order BuildPackage.DependsOn BuildPackage.name packages order := by
    intro order placed
    obtain ⟨count, next⟩ := placePackages_some sorted counted same placed
    exact order_of_next sorted.unique count (by simpa using next)
  refine ⟨⟨?_, ?_⟩, found⟩
  · rintro ⟨order, placed⟩
    exact (found order placed).acyclic sorted.unique.of_map
  · intro acyclic
    cases result : placePackages packages.length (initialSlots packages) with
    | some order => exact ⟨order, rfl⟩
    | none =>
      obtain ⟨placed, fewer, waits⟩ :=
        placePackages_none sorted counted same (by simp) result
      -- a package that is left
      have missing : ∃ pkg ∈ packages, pkg.name ∉ placed := by
        by_contra all
        simp only [not_exists, not_and, not_not] at all
        have inside : packages.map BuildPackage.name ⊆ placed := by
          intro name member
          obtain ⟨pkg, on, rfl⟩ := List.mem_map.mp member
          exact all pkg on
        have few := (List.subperm_of_subset sorted.unique inside).length_le
        rw [List.length_map] at few
        omega
      obtain ⟨pkg, on, new⟩ := missing
      have open_ : pkg ∉ packages.filter (fun other => other.name ∈ placed) := by
        simp [new]
      obtain ⟨least, member, left, ready⟩ := acyclic.exists_ready on open_
      have unplaced : least.name ∉ placed := by
        simpa [member] using left
      obtain ⟨dep, listed, known, absent⟩ := waits least member unplaced
      obtain ⟨target, inSet, rfl⟩ := List.mem_map.mp known
      have placed_ := ready target inSet listed
      simp [absent] at placed_

/-- An order of the packages is found when they depend on each other without a cycle, and it is
the one that takes the alphabetically least package that is ready. -/
theorem computePackageBuildOrder_order (read : PackageDependencies) (packages : List BuildPackage)
    (unique : (packages.map BuildPackage.name).Nodup)
    (lists : ∀ pkg ∈ collectDeps read packages, pkg.deps.Nodup) :
    ((∃ order, computePackageBuildOrder read packages = some order) ↔
      LeastFirst.Acyclic BuildPackage.DependsOn (collectDeps read packages)) ∧
    ∀ order, computePackageBuildOrder read packages = some order →
      LeastFirst.Order BuildPackage.DependsOn BuildPackage.name (collectDeps read packages)
        order := by
  have run : computePackageBuildOrder read packages =
      let sorted := LeastFirst.exchangeSort BuildPackage.name (collectDeps read packages).length
        (collectDeps read packages)
      placePackages sorted.length (initialSlots sorted) := by
    unfold computePackageBuildOrder
    split
    · rename_i empty
      rw [List.isEmpty_iff.mp empty]
      rfl
    · rfl
  have perm := LeastFirst.exchangeSort_perm BuildPackage.name
    (collectDeps read packages).length (collectDeps read packages)
  have order := LeastFirst.exchangeSort_sorted BuildPackage.name
    (le_refl (collectDeps read packages).length)
  rw [run]
  dsimp only
  generalize LeastFirst.exchangeSort BuildPackage.name (collectDeps read packages).length
    (collectDeps read packages) = sorted at perm order ⊢
  have names : (sorted.map BuildPackage.name).Nodup := by
    rw [(perm.map _).nodup_iff, collectDeps_names]
    exact unique
  obtain ⟨exists_, found⟩ := placePackages_order
    ⟨names, order, fun pkg member => lists pkg (perm.mem_iff.mp member)⟩
  refine ⟨exists_.trans (LeastFirst.Acyclic.congr fun _ => perm.mem_iff), fun result placed => ?_⟩
  exact (found result placed).of_perm perm

/-- `elm/html` depends on `elm/core` and `elm/json`, which depends on `elm/core`. -/
def htmlDependencies : PackageDependencies := fun _ name _ =>
  if name = "html" then some [("elm", "json"), ("elm", "core")]
  else if name = "json" then some [("elm", "core")]
  else some []

def htmlPackages : List BuildPackage :=
  [⟨"elm/html", "1.0.0", "", []⟩, ⟨"elm/core", "1.0.5", "", []⟩, ⟨"elm/json", "1.1.3", "", []⟩]

theorem computePackageBuildOrder_order_html :
    ∃ order, computePackageBuildOrder htmlDependencies htmlPackages = some order ∧
      order.map BuildPackage.name = ["elm/core", "elm/json", "elm/html"] ∧
      LeastFirst.Order BuildPackage.DependsOn BuildPackage.name
        (collectDeps htmlDependencies htmlPackages) order := by
  have lists : ∀ pkg ∈ collectDeps htmlDependencies htmlPackages, pkg.deps.Nodup := by
    decide
  have result := computePackageBuildOrder_order htmlDependencies htmlPackages (by decide) lists
  refine ⟨_, rfl, by decide, result.2 _ rfl⟩

end ElmWrap
