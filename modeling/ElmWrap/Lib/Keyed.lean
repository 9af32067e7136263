import Mathlib.Data.List.Sort

/-!
# Keyed lists

A list of items that carry a key: the first item of a key is looked up, changed
in place, or taken out. Where the keys are distinct the list is a finite map, and
sorting it by key gives its canonical form: two such lists with the same lookups
are equal. The second part is about strictly descending lists, which are the
canonical form of a finite set.
-/

namespace ElmWrap.Lib.Keyed

section Lookup

variable {α κ : Type} [DecidableEq κ] (key : α → κ)

/-- The first item of a key. -/
def lookup (k : κ) (l : List α) : Option α := l.find? fun a => key a = k

/-- Change the first item of a key. -/
def update (k : κ) (f : α → α) : List α → List α
  | [] => []
  | a :: rest => if key a = k then f a :: rest else a :: update k f rest

/-- Take out the first item of a key. -/
def remove (k : κ) (l : List α) : List α := l.eraseP fun a => key a = k

/-- Take out the first item of a key, and put the last item in its place. -/
def swapRemove (k : κ) : List α → List α
  | [] => []
  | a :: rest =>
    if key a = k then
      match rest.getLast? with
      | none => []
      | some last => last :: rest.dropLast
    else a :: swapRemove k rest

/-- No key occurs twice. -/
def Distinct (l : List α) : Prop := (l.map key).Nodup

variable {key}

@[simp] theorem lookup_nil (k : κ) : lookup key k ([] : List α) = none := rfl

theorem lookup_cons (k : κ) (a : α) (l : List α) :
    lookup key k (a :: l) = if key a = k then some a else lookup key k l := by
  unfold lookup
  rw [List.find?_cons]
  split
  · rename_i same
    rw [if_pos (by simpa using same)]
  · rename_i other
    rw [if_neg (by simpa using other)]

theorem lookup_some {k : κ} {l : List α} {a : α} (found : lookup key k l = some a) :
    a ∈ l ∧ key a = k :=
  ⟨List.mem_of_find?_eq_some found, by simpa using List.find?_some found⟩

theorem lookup_none {k : κ} {l : List α} : lookup key k l = none ↔ k ∉ l.map key := by
  simp [lookup]

theorem lookup_mem {l : List α} (distinct : Distinct key l) {a : α} (member : a ∈ l) :
    lookup key (key a) l = some a := by
  cases found : lookup key (key a) l with
  | none => exact absurd (List.mem_map_of_mem member) (lookup_none.mp found)
  | some b =>
    obtain ⟨on, same⟩ := lookup_some found
    rw [List.inj_on_of_nodup_map distinct on member same]

/-- The item of a key, among all items. -/
theorem lookup_toList {l : List α} (distinct : Distinct key l) (k : κ) :
    (lookup key k l).toList = l.filter fun a => key a = k := by
  induction l with
  | nil => rfl
  | cons a l ih =>
    obtain ⟨new, later⟩ := List.nodup_cons.mp distinct
    rw [lookup_cons]
    by_cases same : key a = k
    · have others : l.filter (fun b => key b = k) = [] := by
        rw [List.filter_eq_nil_iff]
        intro b on found
        rw [decide_eq_true_eq] at found
        rw [same] at new
        exact new (List.mem_map.mpr ⟨b, on, found⟩)
      rw [if_pos same, List.filter_cons, if_pos (decide_eq_true same), others]
      rfl
    · rw [if_neg same, List.filter_cons, if_neg (by simpa using same)]
      exact ih later

theorem lookup_append (k : κ) (l m : List α) :
    lookup key k (l ++ m) = (lookup key k l).or (lookup key k m) := by
  simp [lookup, List.find?_append]

theorem map_update {k : κ} {f : α → α} (keeps : ∀ a, key (f a) = key a) (l : List α) :
    (update key k f l).map key = l.map key := by
  induction l with
  | nil => rfl
  | cons a l ih =>
    unfold update
    split
    · simp [keeps]
    · simp [ih]

theorem mem_update {k : κ} {f : α → α} {l : List α} {b : α} (member : b ∈ update key k f l) :
    b ∈ l ∨ ∃ a ∈ l, key a = k ∧ b = f a := by
  induction l with
  | nil => cases member
  | cons a l ih =>
    unfold update at member
    split at member
    · rename_i same
      rcases List.mem_cons.mp member with here | on
      · exact Or.inr ⟨a, List.mem_cons_self, same, here⟩
      · exact Or.inl (List.mem_cons_of_mem a on)
    · rcases List.mem_cons.mp member with here | on
      · exact Or.inl (here ▸ List.mem_cons_self)
      · rcases ih on with old | ⟨c, old, same, eq⟩
        · exact Or.inl (List.mem_cons_of_mem a old)
        · exact Or.inr ⟨c, List.mem_cons_of_mem a old, same, eq⟩

theorem lookup_update {k : κ} {f : α → α} (keeps : ∀ a, key (f a) = key a) (j : κ) (l : List α) :
    lookup key j (update key k f l) =
      if j = k then (lookup key k l).map f else lookup key j l := by
  induction l with
  | nil => simp [update]
  | cons a l ih =>
    unfold update
    by_cases here : key a = k
    · rw [if_pos here, lookup_cons, lookup_cons, keeps, here, if_pos rfl, lookup_cons, here]
      by_cases same : j = k
      · rw [if_pos same.symm, if_pos same]
        rfl
      · rw [if_neg (Ne.symm same), if_neg same, if_neg (Ne.symm same)]
    · rw [if_neg here, lookup_cons, ih, lookup_cons, lookup_cons, if_neg here]
      by_cases same : j = k
      · rw [if_pos same, if_pos same, if_neg (same ▸ here)]
      · rw [if_neg same, if_neg same]

theorem update_cons (k : κ) (f : α → α) (a : α) (l : List α) :
    update key k f (a :: l) = if key a = k then f a :: l else a :: update key k f l := rfl

/-- The first item of a key is the one at its place. -/
theorem update_eq_modify {k : κ} {l : List α} {i : Nat} (f : α → α)
    (place : l.findIdx? (fun a => key a = k) = some i) : update key k f l = l.modify i f := by
  induction l generalizing i with
  | nil => cases place
  | cons a l ih =>
    rw [List.findIdx?_cons] at place
    rw [update_cons]
    by_cases same : key a = k
    · rw [if_pos (by simpa using same)] at place
      cases place
      rw [if_pos same, List.modify_zero_cons]
    · rw [if_neg (by simpa using same)] at place
      obtain ⟨j, later, rfl⟩ := Option.map_eq_some_iff.mp place
      rw [if_neg same, List.modify_succ_cons, ih later]

theorem findIdx?_eq_none {k : κ} {l : List α} :
    l.findIdx? (fun a => key a = k) = none ↔ lookup key k l = none := by
  rw [lookup_none, List.findIdx?_eq_none_iff]
  simp

theorem update_update {k : κ} {f g : α → α} (keeps : ∀ a, key (g a) = key a) (l : List α) :
    update key k f (update key k g l) = update key k (fun a => f (g a)) l := by
  induction l with
  | nil => rfl
  | cons a l ih =>
    by_cases here : key a = k
    · have inner : update key k g (a :: l) = g a :: l := by rw [update_cons, if_pos here]
      rw [inner, update_cons, if_pos ((keeps a).trans here), update_cons, if_pos here]
    · have inner : update key k g (a :: l) = a :: update key k g l := by
        rw [update_cons, if_neg here]
      rw [inner, update_cons, if_neg here, update_cons, if_neg here, ih]

theorem Distinct.update {k : κ} {f : α → α} (keeps : ∀ a, key (f a) = key a) {l : List α}
    (distinct : Distinct key l) : Distinct key (update key k f l) := by
  unfold Distinct
  rw [map_update keeps]
  exact distinct

theorem Distinct.append_new {l : List α} (distinct : Distinct key l) {a : α}
    (new : lookup key (key a) l = none) : Distinct key (l ++ [a]) := by
  unfold Distinct
  rw [List.map_append]
  apply List.nodup_append.mpr
  refine ⟨distinct, List.nodup_singleton _, ?_⟩
  intro k on j single same
  have here : k = key a := same.trans (List.mem_singleton.mp single)
  exact lookup_none.mp new (here ▸ on)

/-- Up to the order, both ways of taking out are the same. -/
theorem swapRemove_perm (k : κ) (l : List α) : (swapRemove key k l).Perm (remove key k l) := by
  induction l with
  | nil => exact List.Perm.refl _
  | cons a rest ih =>
    unfold swapRemove remove
    by_cases here : key a = k
    · rw [if_pos here, List.eraseP_cons_of_pos (by simpa using here)]
      cases last : rest.getLast? with
      | none => rw [List.getLast?_eq_none_iff.mp last]
      | some b =>
        have moved : (b :: rest.dropLast).Perm (rest.dropLast ++ [b]) :=
          (List.perm_append_singleton b _).symm
        rw [List.dropLast_append_getLast? b last] at moved
        exact moved
    · rw [if_neg here, List.eraseP_cons_of_neg (by simpa using here)]
      exact ih.cons a

/-- What is in front of the item stays. -/
theorem take_swapRemove {l : List α} (distinct : Distinct key l) {i : Nat} {a : α}
    (there : l[i]? = some a) : (swapRemove key (key a) l).take i = l.take i := by
  induction l generalizing i with
  | nil => rfl
  | cons b rest ih =>
    obtain ⟨absent, tail⟩ := List.nodup_cons.mp distinct
    cases i with
    | zero => rfl
    | succ i =>
      have later : rest[i]? = some a := there
      have other : ¬ key b = key a := fun same =>
        absent (same ▸ List.mem_map_of_mem (List.mem_of_getElem? later))
      unfold swapRemove
      rw [if_neg other, List.take_succ_cons, List.take_succ_cons, ih tail later]

theorem length_swapRemove {l : List α} {a : α} (member : a ∈ l) :
    (swapRemove key (key a) l).length = l.length - 1 := by
  rw [(swapRemove_perm (key a) l).length_eq]
  exact List.length_eraseP_of_mem member (by simp)

theorem mem_swapRemove {k : κ} {l : List α} (distinct : Distinct key l) {a : α} :
    a ∈ swapRemove key k l ↔ a ∈ l ∧ key a ≠ k := by
  rw [(swapRemove_perm k l).mem_iff]
  induction l with
  | nil => simp [remove]
  | cons b rest ih =>
    obtain ⟨absent, tail⟩ := List.nodup_cons.mp distinct
    unfold remove at ih ⊢
    by_cases here : key b = k
    · rw [List.eraseP_cons_of_pos (by simpa using here)]
      constructor
      · intro member
        refine ⟨List.mem_cons_of_mem b member, ?_⟩
        intro same
        exact absent (here ▸ same ▸ List.mem_map_of_mem member)
      · intro both
        rcases List.mem_cons.mp both.1 with first | on
        · exact absurd (first ▸ here) both.2
        · exact on
    · rw [List.eraseP_cons_of_neg (by simpa using here), List.mem_cons, List.mem_cons, ih tail]
      constructor
      · intro which
        rcases which with first | ⟨on, other⟩
        · exact ⟨Or.inl first, first ▸ here⟩
        · exact ⟨Or.inr on, other⟩
      · intro both
        obtain ⟨first | on, other⟩ := both
        · exact Or.inl first
        · exact Or.inr ⟨on, other⟩

theorem Distinct.swapRemove {k : κ} {l : List α} (distinct : Distinct key l) :
    Distinct key (swapRemove key k l) := by
  unfold Distinct
  rw [((swapRemove_perm k l).map key).nodup_iff]
  exact List.Nodup.sublist (List.eraseP_sublist.map key) distinct

theorem Distinct.remove {k : κ} {l : List α} (distinct : Distinct key l) :
    Distinct key (remove key k l) :=
  List.Nodup.sublist (List.eraseP_sublist.map key) distinct

theorem mem_remove {k : κ} {l : List α} {a : α} (member : a ∈ remove key k l) : a ∈ l :=
  List.mem_of_mem_eraseP member

theorem lookup_remove {k : κ} {l : List α} (distinct : Distinct key l) (j : κ) :
    lookup key j (remove key k l) = if j = k then none else lookup key j l := by
  induction l with
  | nil => simp [remove]
  | cons a l ih =>
    obtain ⟨absent, rest⟩ := List.nodup_cons.mp distinct
    unfold remove
    by_cases here : key a = k
    · rw [List.eraseP_cons_of_pos (by simpa using here), lookup_cons, here]
      by_cases same : j = k
      · rw [if_pos same, same]
        exact lookup_none.mpr (here ▸ absent)
      · rw [if_neg same, if_neg (Ne.symm same)]
    · rw [List.eraseP_cons_of_neg (by simpa using here), lookup_cons, lookup_cons]
      have tail := ih rest
      unfold remove at tail
      rw [tail]
      by_cases same : j = k
      · rw [if_pos same, if_neg (same ▸ here), if_pos same]
      · rw [if_neg same, if_neg same]

end Lookup

/-! ## Sorting by key -/

section Sorted

variable {α κ : Type} [LinearOrder κ] (key : α → κ)

/-- Sort by key. -/
def sortBy (l : List α) : List α := l.insertionSort fun a b => key a ≤ key b

/-- Strictly increasing keys. -/
def Increasing (l : List α) : Prop := l.Pairwise fun a b => key a < key b

variable {key}

@[simp] theorem mem_sortBy {l : List α} {a : α} : a ∈ sortBy key l ↔ a ∈ l :=
  List.mem_insertionSort _

theorem perm_sortBy (l : List α) : (sortBy key l).Perm l := List.perm_insertionSort _ l

theorem Distinct.sortBy {l : List α} (distinct : Distinct key l) : Distinct key (sortBy key l) :=
  (((perm_sortBy l).map key).nodup_iff).mpr distinct

theorem increasing_sortBy {l : List α} (distinct : Distinct key l) :
    Increasing key (sortBy key l) := by
  have : Std.Total fun a b : α => key a ≤ key b := ⟨fun a b => le_total (key a) (key b)⟩
  have : IsTrans α fun a b : α => key a ≤ key b := ⟨fun _ _ _ => le_trans⟩
  have sorted := List.pairwise_insertionSort (fun a b : α => key a ≤ key b) l
  have apart := List.pairwise_map.mp distinct.sortBy
  exact (sorted.and apart).imp fun both => lt_of_le_of_ne both.1 both.2

theorem Increasing.distinct {l : List α} (increasing : Increasing key l) : Distinct key l :=
  List.pairwise_map.mpr (increasing.imp fun less => ne_of_lt less)

theorem Increasing.sortBy_eq {l : List α} (increasing : Increasing key l) : sortBy key l = l :=
  List.Pairwise.insertionSort_eq (increasing.imp fun less => le_of_lt less)

@[simp] theorem sortBy_sortBy (l : List α) : sortBy key (sortBy key l) = sortBy key l := by
  have : Std.Total fun a b : α => key a ≤ key b := ⟨fun a b => le_total (key a) (key b)⟩
  have : IsTrans α fun a b : α => key a ≤ key b := ⟨fun _ _ _ => le_trans⟩
  exact List.Pairwise.insertionSort_eq (List.pairwise_insertionSort _ l)

theorem lookup_sortBy {l : List α} (distinct : Distinct key l) (k : κ) :
    lookup key k (sortBy key l) = lookup key k l := by
  cases found : lookup key k l with
  | none =>
    apply lookup_none.mpr
    intro member
    obtain ⟨a, on, same⟩ := List.mem_map.mp member
    exact lookup_none.mp found (List.mem_map.mpr ⟨a, mem_sortBy.mp on, same⟩)
  | some a =>
    obtain ⟨on, same⟩ := lookup_some found
    rw [← same]
    exact lookup_mem distinct.sortBy (mem_sortBy.mpr on)

/-- A list with increasing keys is determined by its lookups. -/
theorem Increasing.ext {l m : List α} (left : Increasing key l) (right : Increasing key m)
    (same : ∀ k, lookup key k l = lookup key k m) : l = m := by
  have : Std.Irrefl fun a b : α => key a < key b := ⟨fun a => lt_irrefl (key a)⟩
  have : Std.Asymm fun a b : α => key a < key b := ⟨fun _ _ => lt_asymm⟩
  apply List.Pairwise.eq_of_mem_iff left right
  intro a
  constructor
  · intro member
    have found := lookup_mem left.distinct member
    rw [same] at found
    exact (lookup_some found).1
  · intro member
    have found := lookup_mem right.distinct member
    rw [← same] at found
    exact (lookup_some found).1

end Sorted

/-! ## Strictly descending lists -/

section Descending

variable {α : Type} [LinearOrder α]

/-- Strictly descending. -/
def Descending (l : List α) : Prop := l.Pairwise fun a b => b < a

/-- Put an item in front of the first smaller one. -/
def insertDesc (a : α) (l : List α) : List α := l.orderedInsert (fun a b => b < a) a

@[simp] theorem mem_insertDesc {a b : α} {l : List α} : b ∈ insertDesc a l ↔ b = a ∨ b ∈ l :=
  List.mem_orderedInsert _

theorem Descending.insertDesc {a : α} {l : List α} (descending : Descending l) (new : a ∉ l) :
    Descending (insertDesc a l) := by
  induction l with
  | nil => exact List.pairwise_singleton _ a
  | cons b l ih =>
    obtain ⟨below, rest⟩ := List.pairwise_cons.mp descending
    unfold Keyed.insertDesc
    rw [List.orderedInsert_cons]
    split
    · rename_i less
      apply List.pairwise_cons.mpr
      refine ⟨?_, descending⟩
      intro c member
      rcases List.mem_cons.mp member with here | on
      · exact here ▸ less
      · exact lt_trans (below c on) less
    · rename_i notLess
      have other : a ≠ b := fun same => new (same ▸ List.mem_cons_self)
      have above : a < b := lt_of_le_of_ne (not_lt.mp notLess) other
      apply List.pairwise_cons.mpr
      refine ⟨?_, ih rest fun on => new (List.mem_cons_of_mem b on)⟩
      intro c member
      rcases mem_insertDesc.mp member with here | on
      · exact here ▸ above
      · exact below c on

/-- Insert an item that is not there yet. -/
def addDesc (a : α) (l : List α) : List α := if a ∈ l then l else insertDesc a l

@[simp] theorem mem_addDesc {a b : α} {l : List α} : b ∈ addDesc a l ↔ b = a ∨ b ∈ l := by
  unfold addDesc
  split
  · rename_i there
    exact ⟨Or.inr, fun which => which.elim (fun same => same ▸ there) id⟩
  · exact mem_insertDesc

theorem Descending.nodup {l : List α} (descending : Descending l) : l.Nodup :=
  descending.imp fun less => ne_of_gt less

/-- A strictly descending list is determined by its members. -/
theorem Descending.ext {l m : List α} (left : Descending l) (right : Descending m)
    (same : ∀ a, a ∈ l ↔ a ∈ m) : l = m := by
  have : Std.Irrefl fun a b : α => b < a := ⟨fun a => lt_irrefl a⟩
  have : Std.Asymm fun a b : α => b < a := ⟨fun _ _ => lt_asymm⟩
  exact List.Pairwise.eq_of_mem_iff left right same

/-- Where the values are strictly descending, the first item with a property has the greatest
value of those with it. -/
theorem Descending.find?_greatest {β : Type} {f : β → α} {l : List β}
    (descending : Descending (l.map f)) {p : β → Bool} {a : β} (found : l.find? p = some a)
    {b : β} (member : b ∈ l) (holds : p b = true) : f b ≤ f a := by
  induction l with
  | nil => cases member
  | cons c l ih =>
    rw [List.map_cons] at descending
    obtain ⟨below, rest⟩ := List.pairwise_cons.mp descending
    rw [List.find?_cons] at found
    split at found
    · cases found
      rcases List.mem_cons.mp member with here | on
      · exact le_of_eq (congrArg f here)
      · exact le_of_lt (below (f b) (List.mem_map_of_mem on))
    · rename_i fails
      rcases List.mem_cons.mp member with here | on
      · rw [here] at holds
        rw [holds] at fails
        cases fails
      · exact ih rest found on

end Descending

/-! ## Lists without repetition -/

section Nodup

variable {α β : Type}

theorem eq_singleton {l : List α} {a : α} (distinct : l.Nodup) (member : a ∈ l)
    (all : ∀ b ∈ l, b = a) : l = [a] := by
  cases l with
  | nil => exact absurd member List.not_mem_nil
  | cons b l =>
    cases l with
    | nil => rw [all b List.mem_cons_self]
    | cons c l =>
      have same := (all b List.mem_cons_self).trans
        (all c (List.mem_cons_of_mem _ List.mem_cons_self)).symm
      exact absurd (same ▸ List.mem_cons_self) (List.nodup_cons.mp distinct).1

/-- Two items with the same key are one, where the keys are distinct. -/
theorem eq_of_nodup_filterMap {name? : α → Option β} {list : List α}
    (distinct : (list.filterMap name?).Nodup) {x y : α} (hx : x ∈ list) (hy : y ∈ list) {b : β}
    (named : name? x = some b) (named' : name? y = some b) : x = y := by
  induction list with
  | nil => cases hx
  | cons z list ih =>
    have elsewhere {x : α} (hx : x ∈ list) (named : name? x = some b) :
        name? z ≠ some b := by
      intro here
      rw [List.filterMap_cons_some here] at distinct
      exact (List.nodup_cons.mp distinct).1 (List.mem_filterMap.mpr ⟨x, hx, named⟩)
    have later : (list.filterMap name?).Nodup :=
      distinct.sublist ((List.sublist_cons_self z list).filterMap name?)
    rcases List.mem_cons.mp hx with rfl | inside
    · rcases List.mem_cons.mp hy with rfl | inside'
      · rfl
      · exact absurd named (elsewhere inside' named')
    · rcases List.mem_cons.mp hy with rfl | inside'
      · exact absurd named' (elsewhere inside named)
      · exact ih later inside inside'

end Nodup

end ElmWrap.Lib.Keyed
