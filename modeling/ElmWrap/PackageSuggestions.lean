import ElmWrap.Lib.BestOf
import ElmWrap.Lib.EditDistance
import ElmWrap.Registry.Stored
import ElmWrap.Solver.Strategy
import ElmWrap.V2Index.Reading

/-!
# Suggestions for a mistyped package name

`package_suggestions.c`: the distance of two names, computed with three rows that
are used in turn, and the few nearest packages of the registry, kept in an array
of fixed size. A character of a name stands for a byte; that memory can be
allocated is taken for granted.
-/

namespace ElmWrap

open Lib

/-- `MAX_PACKAGE_SUGGESTIONS`. -/
def maxPackageSuggestions : Nat := 4

/-! ## The distance -/

/-- The rows of `osa_distance_bytes`. -/
structure OsaRows where
  rowPrev : List UInt32
  rowCurr : List UInt32
  rowPrev2 : List UInt32

/-- What the body of the inner loop stores in `row_curr[j]`. -/
def OsaRows.best (rows : OsaRows) (a b : List Char) (i j : Nat) : UInt32 :=
  let cost : UInt32 := if a[i - 1]? = b[j - 1]? then 0 else 1
  let deletion := rows.rowPrev.getD j 0 + 1
  let insertion := rows.rowCurr.getD (j - 1) 0 + 1
  let substitution := rows.rowPrev.getD (j - 1) 0 + cost
  let best := deletion
  let best := if insertion < best then insertion else best
  let best := if substitution < best then substitution else best
  if i > 1 ∧ j > 1 ∧ a[i - 1]? = b[j - 2]? ∧ a[i - 2]? = b[j - 1]? then
    let transposition := rows.rowPrev2.getD (j - 2) 0 + 1
    if transposition < best then transposition else best
  else best

/-- An assignment to `row_curr[j]`. -/
def OsaRows.store (rows : OsaRows) (j : Nat) (value : UInt32) : OsaRows :=
  { rows with rowCurr := rows.rowCurr.set j value }

/-- The inner loop, for `j` from 1 on. -/
def OsaRows.fill (rows : OsaRows) (a b : List Char) (i : Nat) : Nat → OsaRows
  | 0 => rows.store 0 (UInt32.ofNat i)
  | j + 1 =>
    let rows := rows.fill a b i j
    rows.store (j + 1) (rows.best a b i (j + 1))

/-- The three assignments behind the inner loop. -/
def OsaRows.rotate (rows : OsaRows) : OsaRows where
  rowPrev2 := rows.rowPrev
  rowPrev := rows.rowCurr
  rowCurr := rows.rowPrev2

/-- The outer loop, for `i` from 1 on. -/
def OsaRows.run (rows : OsaRows) (a b : List Char) : Nat → OsaRows
  | 0 => rows
  | i + 1 => ((rows.run a b i).fill a b (i + 1) b.length).rotate

/-- The rows before the outer loop. -/
def OsaRows.start (lenB : Nat) : OsaRows where
  rowPrev := (List.range (lenB + 1)).map UInt32.ofNat
  rowCurr := List.replicate (lenB + 1) 0
  rowPrev2 := List.replicate (lenB + 1) 0

/-- `osa_distance_bytes`. -/
def osaDistanceBytes (a b : List Char) : UInt32 :=
  if a.length = 0 then UInt32.ofNat b.length
  else if b.length = 0 then UInt32.ofNat a.length
  else ((OsaRows.start b.length).run a b a.length).rowPrev.getD b.length 0

/-! ## The suggestions -/

/-- `PackageSuggestion`. -/
structure PackageSuggestion where
  author : String
  name : String
  score : UInt32
deriving DecidableEq, Repr

/-- `author_distance`. -/
def authorDistance (givenAuthor candidateAuthor : String) : UInt32 :=
  if candidateAuthor = "elm" ∨ candidateAuthor = "elm-explorations" then 0
  else osaDistanceBytes givenAuthor.toList candidateAuthor.toList

/-- `top_suggestions_insert`, on the first `count` places of the array. -/
def topSuggestionsInsert (best : List PackageSuggestion) (author name : String) (score : UInt32) :
    List PackageSuggestion :=
  let current := best.length
  let pos := best.findIdx fun suggestion => score < suggestion.score
  let pos := if pos = current ∧ current ≥ maxPackageSuggestions then maxPackageSuggestions - 1
    else pos
  let newCount := if current < maxPackageSuggestions then current + 1 else maxPackageSuggestions
  let pos := if pos > newCount - 1 then newCount - 1 else pos
  -- the entries from `pos` on move up by one, and none goes beyond the last place
  (best.take pos ++ ⟨author, name, score⟩ :: best.drop pos).take newCount

/-- `consider_candidate`. -/
def considerCandidate (givenAuthor givenName : String) (best : List PackageSuggestion)
    (candAuthor candName : String) : List PackageSuggestion :=
  let projectDistance := osaDistanceBytes givenName.toList candName.toList
  let score := authorDistance givenAuthor candAuthor + projectDistance
  if best.length = maxPackageSuggestions ∧
      (best[maxPackageSuggestions - 1]?.any fun last => score ≥ last.score) then best
  else topSuggestionsInsert best candAuthor candName score

/-- `v2_entry_has_valid_version`. -/
def v2EntryHasValidVersion (entry : V2PackageEntry) : Bool :=
  entry.versions.any fun version => version.status = .valid

/-- What `package_suggest_nearby_from_env` sees of its `InstallEnv`. -/
structure SuggestEnv where
  protocolMode : ProtocolMode
  registry : Option Registry
  v2Registry : Option V2Registry

/-- `package_suggest_nearby_from_env`. -/
def packageSuggestNearbyFromEnv (env : SuggestEnv) (givenAuthor givenName : String) :
    List PackageSuggestion :=
  match env.protocolMode with
  | .v2 =>
    match env.v2Registry with
    | none => []
    | some registry => registry.entries.foldl (fun best entry =>
      if !v2EntryHasValidVersion entry then best
      else considerCandidate givenAuthor givenName best entry.author entry.name) []
  | .v1 =>
    match env.registry with
    | none => []
    | some registry => registry.entries.foldl (fun best entry =>
      considerCandidate givenAuthor givenName best entry.author entry.name) []

/-! ## The rows are rows of the table -/

/-- The places of a row up to `n` hold the numbers `f`. -/
structure RowHolds (row : List UInt32) (f : Nat → Nat) (n : Nat) : Prop where
  inside : n < row.length
  holds : ∀ j ≤ n, (row.getD j 0).toNat = f j

namespace RowHolds

variable {row : List UInt32} {f : Nat → Nat} {n : Nat}

theorem set_next (held : RowHolds row f n) {value : UInt32} (inside : n + 1 < row.length)
    (next : value.toNat = f (n + 1)) : RowHolds (row.set (n + 1) value) f (n + 1) where
  inside := by rwa [List.length_set]
  holds := by
    intro j le
    rw [List.getD_eq_getElem?_getD, List.getElem?_set]
    split
    · rename_i same
      rw [Option.getD_some, next, same]
    · rename_i other
      rw [← List.getD_eq_getElem?_getD]
      exact held.holds j (by omega)

end RowHolds

theorem toNat_ofNat_fits {n : Nat} (fits : n < 2 ^ 32) : (UInt32.ofNat n).toNat = n :=
  UInt32.toNat_ofNat_of_lt' fits

theorem toNat_add_one {x : UInt32} {m : Nat} (value : x.toNat = m) (fits : m + 1 < 2 ^ 32) :
    (x + 1).toNat = m + 1 := by
  rw [UInt32.toNat_add, value]
  exact Nat.mod_eq_of_lt fits

theorem toNat_least {x y : UInt32} {m n : Nat} (first : x.toNat = m) (second : y.toNat = n) :
    (if x < y then x else y).toNat = min n m := by
  have less : x < y ↔ m < n := by rw [UInt32.lt_iff_toNat_lt, first, second]
  split
  · rename_i order
    rw [first, Nat.min_eq_right (less.mp order).le]
  · rename_i order
    rw [second, Nat.min_eq_left (not_lt.mp (less.not.mp order))]

/-- Before row `i + 1` is filled: the two rows above it, and a row to write to. -/
structure OsaRows.Above (rows : OsaRows) (a b : List Char) (i : Nat) : Prop where
  prev : RowHolds rows.rowPrev (EditDistance.distanceTo a b i) b.length
  prev2 : 0 < i → RowHolds rows.rowPrev2 (EditDistance.distanceTo a b (i - 1)) b.length
  room : b.length < rows.rowCurr.length
  roomPrev2 : b.length < rows.rowPrev2.length

namespace OsaRows

open EditDistance

variable {rows : OsaRows} {a b : List Char} {i : Nat}

/-- One place of the row: the minimum of the recurrence. -/
theorem best_toNat (above : rows.Above a b i) {j : Nat} (inside : j < b.length)
    (curr : RowHolds rows.rowCurr (distanceTo a b (i + 1)) j)
    (fits : i + 1 + b.length < 2 ^ 32) :
    (rows.best a b (i + 1) (j + 1)).toNat = distanceTo a b (i + 1) (j + 1) := by
  have bound : ∀ k l, k ≤ i + 1 → l < b.length → distanceTo a b k l + 1 < 2 ^ 32 := by
    intro k l
    have most := distanceTo_le a b k l
    omega
  have deletion : (rows.rowPrev.getD (j + 1) 0 + 1).toNat = distanceTo a b i (j + 1) + 1 := by
    have most := distanceTo_le a b i (j + 1)
    exact toNat_add_one (above.prev.holds (j + 1) inside) (by omega)
  have insertion : (rows.rowCurr.getD j 0 + 1).toNat = distanceTo a b (i + 1) j + 1 :=
    toNat_add_one (curr.holds j le_rfl) (bound _ j le_rfl inside)
  have substitution : (rows.rowPrev.getD j 0 + if a[i]? = b[j]? then 0 else 1).toNat =
      distanceTo a b i j + replacing a b i j := by
    have here := above.prev.holds j inside.le
    unfold replacing
    split
    · rw [UInt32.add_zero, here, Nat.add_zero]
    · exact toNat_add_one here (bound i j (Nat.le_succ i) inside)
  have least := toNat_least substitution (toNat_least insertion deletion)
  have swapped : (i + 1 > 1 ∧ j + 1 > 1 ∧ a[i]? = b[j - 1]? ∧ a[i - 1]? = b[j]?) ↔
      Exchanged a b i j := by
    unfold Exchanged
    simp only [gt_iff_lt, Nat.lt_add_left_iff_pos]
  have behind : ∀ n, n + 1 - 2 = n - 1 := fun _ => rfl
  rw [distanceTo]
  simp only [OsaRows.best, Nat.add_sub_cancel, behind]
  by_cases exchanged : Exchanged a b i j
  · have transposition : (rows.rowPrev2.getD (j - 1) 0 + 1).toNat =
        distanceTo a b (i - 1) (j - 1) + 1 :=
      toNat_add_one ((above.prev2 exchanged.1).holds (j - 1) (by omega))
        (bound _ _ (by omega) (by omega))
    rw [if_pos exchanged, if_pos (swapped.mpr exchanged)]
    exact toNat_least transposition least
  · rw [if_neg exchanged, if_neg (swapped.not.mpr exchanged)]
    exact least

/-- Filling changes the current row only. -/
theorem fill_others (rows : OsaRows) (a b : List Char) (i j : Nat) :
    (rows.fill a b i j).rowPrev = rows.rowPrev ∧ (rows.fill a b i j).rowPrev2 = rows.rowPrev2 ∧
      (rows.fill a b i j).rowCurr.length = rows.rowCurr.length := by
  induction j with
  | zero => exact ⟨rfl, rfl, List.length_set⟩
  | succ j ih => exact ⟨ih.1, ih.2.1, List.length_set.trans ih.2.2⟩

theorem Above.fill (above : rows.Above a b i) (k j : Nat) : (rows.fill a b k j).Above a b i := by
  obtain ⟨prev, prev2, curr⟩ := fill_others rows a b k j
  exact {
    prev := prev ▸ above.prev
    prev2 := prev2 ▸ above.prev2
    room := curr ▸ above.room
    roomPrev2 := prev2 ▸ above.roomPrev2 }

/-- The inner loop: by induction on the places filled. -/
theorem fill_holds (above : rows.Above a b i) (fits : i + 1 + b.length < 2 ^ 32) {j : Nat}
    (inside : j ≤ b.length) :
    RowHolds (rows.fill a b (i + 1) j).rowCurr (distanceTo a b (i + 1)) j := by
  induction j with
  | zero =>
    have room : 0 < rows.rowCurr.length := (Nat.zero_le _).trans_lt above.room
    refine ⟨by rwa [OsaRows.fill, store, List.length_set], ?_⟩
    intro k le
    rw [Nat.le_zero.mp le, OsaRows.fill, store, List.getD_eq_getElem?_getD,
      List.getElem?_set_self room, Option.getD_some, distanceTo_zero_right]
    exact toNat_ofNat_fits (by omega)
  | succ j ih =>
    have before := ih (Nat.le_of_succ_le inside)
    refine before.set_next ?_ (best_toNat (above.fill (i + 1) j) inside before fits)
    rw [(fill_others rows a b (i + 1) j).2.2]
    exact inside.trans_lt above.room

/-- The outer loop: one turn. -/
theorem Above.next (above : rows.Above a b i) (fits : i + 1 + b.length < 2 ^ 32) :
    ((rows.fill a b (i + 1) b.length).rotate).Above a b (i + 1) := by
  have filled := above.fill (i + 1) b.length
  exact {
    prev := fill_holds above fits le_rfl
    prev2 := fun _ => filled.prev
    room := filled.roomPrev2
    roomPrev2 := filled.prev.inside }

/-- The outer loop: by induction on the rows filled. -/
theorem run_above (start : rows.Above a b 0) {i : Nat} (fits : i + b.length < 2 ^ 32) :
    (rows.run a b i).Above a b i := by
  induction i with
  | zero => exact start
  | succ i ih => exact (ih (by omega)).next fits

theorem start_above {a b : List Char} (fits : b.length < 2 ^ 32) :
    (OsaRows.start b.length).Above a b 0 where
  prev := by
    refine ⟨by rw [start, List.length_map, List.length_range]; exact Nat.lt_succ_self _, ?_⟩
    intro j le
    have place : (List.range (b.length + 1))[j]? = some j :=
      List.getElem?_range (Nat.lt_succ_of_le le)
    rw [start, List.getD_eq_getElem?_getD, List.getElem?_map, place, Option.map_some,
      Option.getD_some, distanceTo_zero_left]
    exact toNat_ofNat_fits (by omega)
  prev2 := fun positive => absurd positive (lt_irrefl 0)
  room := by rw [start, List.length_replicate]; exact Nat.lt_succ_self _
  roomPrev2 := by rw [start, List.length_replicate]; exact Nat.lt_succ_self _

end OsaRows

/-- The rows used in turn compute the table, as long as the lengths fit in the counter. -/
theorem osaDistanceBytes_toNat {a b : List Char} (fits : a.length + b.length < 2 ^ 32) :
    (osaDistanceBytes a b).toNat = EditDistance.distance a b := by
  unfold osaDistanceBytes EditDistance.distance
  split
  · rename_i empty
    rw [empty, EditDistance.distanceTo_zero_left]
    exact toNat_ofNat_fits (by omega)
  split
  · rename_i empty
    rw [empty, EditDistance.distanceTo_zero_right]
    exact toNat_ofNat_fits (by omega)
  · exact (OsaRows.run_above (OsaRows.start_above (by omega)) fits).prev.holds b.length le_rfl

/-! ## The nearest packages -/

/-- The packages that are considered, in the order of the registry. -/
def SuggestEnv.eligible (env : SuggestEnv) : List (String × String) :=
  match env.protocolMode with
  | .v2 => ((env.v2Registry.elim [] V2Registry.entries).filter v2EntryHasValidVersion).map
      V2PackageEntry.key
  | .v1 => (env.registry.elim [] Registry.entries).map fun entry => (entry.author, entry.name)

/-- A package as it is suggested, with the score the code gives it. -/
def suggestion (givenAuthor givenName : String) (package : String × String) :
    PackageSuggestion where
  author := package.1
  name := package.2
  score := authorDistance givenAuthor package.1 +
    osaDistanceBytes givenName.toList package.2.toList

/-- That score as a number. -/
def codeScore (givenAuthor givenName : String) (package : String × String) : Nat :=
  (suggestion givenAuthor givenName package).score.toNat

/-- The distance of the names and, unless the author is `elm` or `elm-explorations`, of
the authors. -/
def suggestionScore (givenAuthor givenName : String) (package : String × String) : Nat :=
  (if package.1 = "elm" ∨ package.1 = "elm-explorations" then 0
    else EditDistance.distance givenAuthor.toList package.1.toList) +
    EditDistance.distance givenName.toList package.2.toList

section Nearest

variable {givenAuthor givenName : String} {kept : List (String × String)}
  {package : String × String}

theorem topSuggestionsInsert_keep (few : kept.length ≤ maxPackageSuggestions)
    (less : kept.length = maxPackageSuggestions →
      ∃ b ∈ kept, codeScore givenAuthor givenName package < codeScore givenAuthor givenName b) :
    topSuggestionsInsert (kept.map (suggestion givenAuthor givenName)) package.1 package.2
        (suggestion givenAuthor givenName package).score =
      (BestOf.keep (codeScore givenAuthor givenName) maxPackageSuggestions kept package).map
        (suggestion givenAuthor givenName) := by
  have test : ((fun s : PackageSuggestion =>
        decide ((suggestion givenAuthor givenName package).score < s.score)) ∘
        suggestion givenAuthor givenName) =
      fun b => decide (codeScore givenAuthor givenName package <
        codeScore givenAuthor givenName b) := by
    funext b
    exact decide_eq_decide.mpr UInt32.lt_iff_toNat_lt
  unfold BestOf.keep
  rw [BestOf.insertLate_findIdx]
  unfold topSuggestionsInsert
  simp only [List.findIdx_map, test, List.length_map]
  generalize place : (kept.findIdx fun b => decide (codeScore givenAuthor givenName package <
    codeScore givenAuthor givenName b)) = pos
  have inside : pos ≤ kept.length := place ▸ List.findIdx_le_length
  have found : kept.length = maxPackageSuggestions → pos < kept.length := by
    intro full
    obtain ⟨b, member, order⟩ := less full
    rw [← place]
    exact List.findIdx_lt_length_of_exists ⟨b, member, decide_eq_true order⟩
  have notLast : ¬ (pos = kept.length ∧ kept.length ≥ maxPackageSuggestions) := by
    intro ⟨last, most⟩
    exact (found (few.antisymm most)).ne last
  rw [if_neg notLast]
  change List.take _ (List.take _ _ ++ suggestion givenAuthor givenName package :: _) = _
  rw [List.map_take, List.map_append, List.map_cons, List.map_take, List.map_drop]
  split
  · rename_i room
    have within : ¬ pos > kept.length + 1 - 1 := by omega
    have length : ((kept.map (suggestion givenAuthor givenName)).take pos ++
        suggestion givenAuthor givenName package ::
          (kept.map (suggestion givenAuthor givenName)).drop pos).length = kept.length + 1 := by
      simp only [List.length_append, List.length_cons, List.length_take, List.length_drop,
        List.length_map]
      omega
    rw [if_neg within, List.take_of_length_le length.le,
      List.take_of_length_le (length.trans_le room)]
  · rename_i full
    have before := found (few.antisymm (not_lt.mp full))
    have positive : 0 < maxPackageSuggestions := by decide
    have within : ¬ pos > maxPackageSuggestions - 1 := by omega
    rw [if_neg within]

/-- One candidate: the list stays the few best, as long as it is sorted. -/
theorem considerCandidate_keep (few : kept.length ≤ maxPackageSuggestions)
    (sorted : kept.Pairwise (BestOf.AtMost (codeScore givenAuthor givenName))) :
    considerCandidate givenAuthor givenName (kept.map (suggestion givenAuthor givenName))
        package.1 package.2 =
      (BestOf.keep (codeScore givenAuthor givenName) maxPackageSuggestions kept package).map
        (suggestion givenAuthor givenName) := by
  have last : ((kept.map (suggestion givenAuthor givenName))[maxPackageSuggestions - 1]?.any
        fun last => (suggestion givenAuthor givenName package).score ≥ last.score) = true ↔
      ∃ b, kept[maxPackageSuggestions - 1]? = some b ∧
        codeScore givenAuthor givenName b ≤ codeScore givenAuthor givenName package := by
    rw [List.getElem?_map]
    cases kept[maxPackageSuggestions - 1]? with
    | none => simp
    | some b => simp [codeScore, UInt32.le_iff_toNat_le]
  change (if (kept.map (suggestion givenAuthor givenName)).length = maxPackageSuggestions ∧ _
    then _ else topSuggestionsInsert _ _ _ (suggestion givenAuthor givenName package).score) = _
  rw [List.length_map]
  split
  · rename_i dropped
    obtain ⟨b, place, order⟩ := last.mp dropped.2
    obtain ⟨inside, here⟩ := List.getElem?_eq_some_iff.mp place
    rw [BestOf.keep_full _ dropped.1]
    intro c member
    obtain ⟨k, before, at_k⟩ := List.getElem_of_mem member
    rcases Nat.lt_or_ge k (maxPackageSuggestions - 1) with earlier | final
    · have smaller := List.pairwise_iff_getElem.mp sorted k _ before inside earlier
      rw [at_k, here] at smaller
      exact smaller.trans order
    · have same : k = maxPackageSuggestions - 1 := by omega
      subst same
      rw [← at_k, here]
      exact order
  · rename_i considered
    refine topSuggestionsInsert_keep few fun full => ?_
    have inside : maxPackageSuggestions - 1 < kept.length := by
      rw [full]
      decide
    refine ⟨kept[maxPackageSuggestions - 1], List.getElem_mem inside, ?_⟩
    by_contra notLess
    exact considered ⟨full, last.mpr
      ⟨_, List.getElem?_eq_getElem inside, not_lt.mp notLess⟩⟩

/-- All candidates: by induction on how many have been considered. -/
theorem foldl_considerCandidate (givenAuthor givenName : String)
    (packages : List (String × String)) :
    packages.foldl (fun best package =>
        considerCandidate givenAuthor givenName best package.1 package.2) [] =
      ((BestOf.sorted (codeScore givenAuthor givenName) packages).take
        maxPackageSuggestions).map (suggestion givenAuthor givenName) := by
  rw [← BestOf.foldl_keep]
  induction packages using List.reverseRecOn with
  | nil => rfl
  | append_singleton packages package ih =>
    rw [List.foldl_append, List.foldl_append, ih, List.foldl_cons, List.foldl_nil,
      List.foldl_cons, List.foldl_nil]
    rw [BestOf.foldl_keep]
    exact considerCandidate_keep (List.length_take_le _ _)
      ((BestOf.pairwise_sorted _ packages).sublist (List.take_sublist _ _))

end Nearest

theorem packageSuggestNearbyFromEnv_eq (env : SuggestEnv) (givenAuthor givenName : String) :
    packageSuggestNearbyFromEnv env givenAuthor givenName =
      ((BestOf.sorted (codeScore givenAuthor givenName) env.eligible).take
        maxPackageSuggestions).map (suggestion givenAuthor givenName) := by
  rw [← foldl_considerCandidate]
  unfold packageSuggestNearbyFromEnv SuggestEnv.eligible
  cases env.protocolMode with
  | v1 =>
    cases env.registry with
    | none => rfl
    | some registry =>
      dsimp only [Option.elim]
      rw [List.foldl_map]
  | v2 =>
    cases env.v2Registry with
    | none => rfl
    | some registry =>
      dsimp only [Option.elim]
      rw [List.foldl_map, List.foldl_filter]
      congr 1
      funext best entry
      cases v2EntryHasValidVersion entry with
      | false => rfl
      | true => rfl

/-! ## Names the counter has room for -/

/-- The lengths that make up a score fit in the counter. -/
def SuggestEnv.ScoresFit (env : SuggestEnv) (givenAuthor givenName : String) : Prop :=
  ∀ package ∈ env.eligible,
    givenAuthor.toList.length + package.1.toList.length +
      (givenName.toList.length + package.2.toList.length) < 2 ^ 32

theorem codeScore_eq {givenAuthor givenName : String} {package : String × String}
    (fits : givenAuthor.toList.length + package.1.toList.length +
      (givenName.toList.length + package.2.toList.length) < 2 ^ 32) :
    codeScore givenAuthor givenName package = suggestionScore givenAuthor givenName package := by
  have name := osaDistanceBytes_toNat (a := givenName.toList) (b := package.2.toList) (by omega)
  have name_le := EditDistance.distanceTo_le givenName.toList package.2.toList
    givenName.toList.length package.2.toList.length
  have author := osaDistanceBytes_toNat (a := givenAuthor.toList) (b := package.1.toList)
    (by omega)
  have author_le := EditDistance.distanceTo_le givenAuthor.toList package.1.toList
    givenAuthor.toList.length package.1.toList.length
  unfold codeScore suggestion suggestionScore authorDistance
  rw [UInt32.toNat_add, name]
  split
  · exact Nat.mod_eq_of_lt (by rw [UInt32.toNat_zero]; unfold EditDistance.distance; omega)
  · rw [author]
    exact Nat.mod_eq_of_lt (by unfold EditDistance.distance; omega)

/-- An author and a name of at most 255 bytes each. -/
def ShortPackage (package : String × String) : Prop :=
  package.1.toList.length < maxPackageNameLength ∧ package.2.toList.length < maxPackageNameLength

theorem shortPackage_key (name : PackageName) : ShortPackage name.key := by
  have author := length_le_utf8ByteSize name.author
  have project := length_le_utf8ByteSize name.project
  have short := name.short
  exact ⟨by dsimp only [PackageName.key]; omega, by dsimp only [PackageName.key]; omega⟩

/-- The names of `registry.dat` have a byte for their length. -/
theorem registryLoadFromDat_short {bytes : Binary.Bytes} {registry : Registry}
    (loaded : registryLoadFromDat bytes = some registry) :
    ∀ entry ∈ registry.entries, ShortPackage (entry.author, entry.name) := by
  intro entry member
  obtain ⟨author, name, _⟩ := (registryLoadFromDat_some loaded).1 entry member
  exact ⟨author.short, name.short⟩

/-- Nor is a package added to the registry under a longer name. -/
theorem Registry.Named.short {registry : Registry} (named : registry.Named) :
    ∀ entry ∈ registry.entries, ShortPackage (entry.author, entry.name) := by
  intro entry member
  obtain ⟨name, author, project⟩ := named entry member
  rw [← author, ← project]
  exact shortPackage_key name

/-- An index names its packages by `parse_package_name`. -/
theorem v2RegistryParse_short {data : List Char} {registry : V2Registry}
    (parsed : v2RegistryParse data = some registry) :
    ∀ entry ∈ registry.entries, ShortPackage entry.key := by
  intro entry member
  have stored := v2RegistryParse_stored parsed entry.key
  split at stored
  · have listed : entry.key ∈ registry.entries.map V2PackageEntry.key :=
      List.mem_map_of_mem member
    exact absurd listed (Keyed.lookup_none.mp (Option.map_eq_none_iff.mp stored))
  · rename_i sections
    obtain ⟨package, inside⟩ := List.exists_mem_of_ne_nil _ sections
    have read := (List.mem_filter.mp inside).2
    unfold isSectionOf at read
    obtain ⟨name, _, same⟩ := Option.map_eq_some_iff.mp (of_decide_eq_true read)
    rw [← same]
    exact shortPackage_key name

/-- A name accepted from the command line and short names in the registry fit. -/
theorem SuggestEnv.scoresFit (env : SuggestEnv) (given : PackageName)
    (v1 : ∀ registry, env.registry = some registry →
      ∀ entry ∈ registry.entries, ShortPackage (entry.author, entry.name))
    (v2 : ∀ registry, env.v2Registry = some registry →
      ∀ entry ∈ registry.entries, ShortPackage entry.key) :
    env.ScoresFit given.author given.project := by
  have short : ∀ package ∈ env.eligible, ShortPackage package := by
    unfold SuggestEnv.eligible
    split
    · cases index : env.v2Registry with
      | none => exact List.forall_mem_nil _
      | some registry =>
        rw [List.forall_mem_map]
        exact fun entry member => v2 registry index entry (List.mem_of_mem_filter member)
    · cases index : env.registry with
      | none => exact List.forall_mem_nil _
      | some registry =>
        rw [List.forall_mem_map]
        exact fun entry member => v1 registry index entry member
  intro package member
  obtain ⟨author, name⟩ := short package member
  obtain ⟨givenAuthor, givenName⟩ := shortPackage_key given
  unfold maxPackageNameLength at author name givenAuthor givenName
  dsimp only [PackageName.key] at givenAuthor givenName
  omega

/-! ## The suggestions are the nearest packages -/

/-- The suggestions are the beginning of the stable sort of all packages considered by
their distance. -/
theorem packageSuggestNearbyFromEnv_nearest (env : SuggestEnv) (givenAuthor givenName : String)
    (fits : env.ScoresFit givenAuthor givenName) :
    (packageSuggestNearbyFromEnv env givenAuthor givenName).map
        (fun s => ((s.author, s.name), s.score.toNat)) =
      ((BestOf.sorted (suggestionScore givenAuthor givenName) env.eligible).take
        maxPackageSuggestions).map
        fun package => (package, suggestionScore givenAuthor givenName package) := by
  have agree : ∀ package ∈ env.eligible,
      codeScore givenAuthor givenName package = suggestionScore givenAuthor givenName package :=
    fun package member => codeScore_eq (fits package member)
  rw [packageSuggestNearbyFromEnv_eq, BestOf.sorted_congr agree, List.map_map]
  refine List.map_congr_left fun package member => ?_
  have listed := BestOf.mem_sorted.mp (List.mem_of_mem_take member)
  exact Prod.ext rfl (agree package listed)

/-- A registry with two packages that are as near as each other. -/
def nearRegistry : Registry where
  entries := [⟨"elm", "jsno", []⟩, ⟨"elm", "core", []⟩, ⟨"ela", "json", []⟩]
  sinceCount := 3

theorem packageSuggestNearbyFromEnv_nearest_json :
    (packageSuggestNearbyFromEnv ⟨.v1, some nearRegistry, none⟩ "elm" "json").map
        (fun s => ((s.author, s.name), s.score.toNat)) =
      ((BestOf.sorted (suggestionScore "elm" "json") [("elm", "jsno"), ("elm", "core"),
        ("ela", "json")]).take maxPackageSuggestions).map
        fun package => (package, suggestionScore "elm" "json" package) :=
  packageSuggestNearbyFromEnv_nearest ⟨.v1, some nearRegistry, none⟩ "elm" "json" (by
    intro package member
    simp only [SuggestEnv.eligible, nearRegistry, Option.elim, List.map_cons, List.map_nil,
      List.mem_cons, List.not_mem_nil, or_false] at member
    rcases member with rfl | rfl | rfl
    · decide
    · decide
    · decide)

end ElmWrap
