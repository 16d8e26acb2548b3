/-
# Predicate dependencies

A serializable read records what its filter depends on: the whole table, or ranges of posting
keys of sorted indexes (`predicate_to_index_range`).  A commit records the keys of the postings
it sets, and a reader is reported a conflict if one of them is in a range of its own
(`record_conflicts`, `index_range_overlaps_sorted`).

The ranges follow the order of the index, not the comparison of the filter, so a matching
record may have its key outside or none at all; and the keys of removed postings are not
recorded, so a row that leaves the result goes unnoticed.
-/
import ShamirDb.RangePlans

namespace ShamirDb.Query

open List Option

/-! ## Ranges -/

/-- `std::ops::Bound`. -/
inductive Bound where
  | unbounded
  | included (b : Bytes)
  | excluded (b : Bytes)

/-- `PredicateDep::IndexRange` on the one table. -/
structure IndexRange where
  indexId : UInt64
  lo : Bound
  hi : Bound

/-- `encode_filter_value`: there is no range for null. -/
def encodeFilterValue : FilterValue → Option Bytes
  | .lit .null => none
  | .lit s => encodeForSort s
  | _ => none

/-- The field and the bounds of a leaf with a range. -/
structure LeafRange where
  field : List String
  lo : Option FilterValue
  hi : Option FilterValue

/-- The leaves `predicate_handle_one` maps; strict bounds are taken as inclusive. -/
def leafRange : Filter → Option LeafRange
  | .compare .gt field value | .compare .gte field value => some ⟨field, some value, none⟩
  | .compare .lt field value | .compare .lte field value => some ⟨field, none, some value⟩
  | .compare .eq field value | .fieldEq field value => some ⟨field, some value, some value⟩
  | .between field lo hi => some ⟨field, some lo, some hi⟩
  | _ => none

variable (ctx : FilterContext)

/-- The code of a bound, if there is one; `none` if it has no code. -/
def encodeBound : Option FilterValue → Option (Option Bytes)
  | none => some none
  | some value => (encodeFilterValue value).map some

/-- `predicate_handle_one`. -/
def predicateHandleOne (defs : List SortedDef) (f : Filter) : Option IndexRange :=
  match leafRange f with
  | none => none
  | some r =>
    match encodeBound r.lo, encodeBound r.hi with
    | some lo, some hi =>
      match (internFieldPath ctx r.field).bind (findByField defs) with
      | none => none
      | some d =>
        some ⟨d.name, .included (rangeBounds d.name lo hi).1, .included (rangeBounds d.name lo hi).2⟩
    | _, _ => none

/-- `predicate_to_index_range`: empty for a dependency on the whole table. -/
def predicateToIndexRange (defs : List SortedDef) : Filter → List IndexRange
  | .and filters => (filters.mapM (predicateHandleOne ctx defs)).getD []
  | f => (predicateHandleOne ctx defs f).toList

/-- `key_in_interval`. -/
def keyInInterval (key : Bytes) (dep : IndexRange) : Bool :=
  (sortedPrefix dep.indexId).isPrefixOf key && (match dep.lo with
      | .unbounded => true
      | .included b => decide (¬ key < b)
      | .excluded b => decide (¬ key ≤ b)) &&
    (match dep.hi with
      | .unbounded => true
      | .included b => decide (¬ b < key)
      | .excluded b => decide (¬ b ≤ key))

/-- `slice::partition_point` on a slice whose first part is what satisfies `p`. -/
def partitionPoint (p : Bytes → Bool) (keys : List Bytes) : Nat := (keys.takeWhile p).length

/-- `index_range_overlaps_sorted`: only the first candidate is tested. -/
def indexRangeOverlapsSorted (keys : List Bytes) (dep : IndexRange) : Bool :=
  let prefixStart := partitionPoint (fun k => decide (k < sortedPrefix dep.indexId)) keys
  let start :=
    match dep.lo with
    | .unbounded => prefixStart
    | .included b => max prefixStart (partitionPoint (fun k => decide (k < b)) keys)
    | .excluded b => max prefixStart (partitionPoint (fun k => decide (k ≤ b)) keys)
  match keys[start]? with
  | none => false
  | some k => keyInInterval k dep

/-! ## Commits -/

/-- What a commit does to one row: the record before and after. -/
structure RowWrite where
  id : RecordId
  old : Option Value
  new : Option Value
  /-- Whether the projection of a covering index changes; such an index sets its posting
  again. -/
  projChanged : SortedDef → Bool

/-- The keys of the postings set for one index (`plan_record_created`,
`plan_record_updated`; `plan_record_deleted` sets none). -/
def RowWrite.setKey (w : RowWrite) (d : SortedDef) : Option Bytes :=
  match w.old, w.new with
  | none, some new => d.posting (w.id, new)
  | some old, some new =>
    if extractAndEncode old d.path ≠ extractAndEncode new d.path ∨ w.projChanged d = true then
      d.posting (w.id, new)
    else none
  | _, none => none

/-- A commit; only some publish the keys they set (serializable ones, and those of tables
flagged for it). -/
structure Commit where
  writes : List RowWrite
  published : Bool

/-- `build_footprint_from_tx`: the keys of the postings that are set, ascending. -/
def Commit.insertedIndexKeys (c : Commit) (defs : List SortedDef) : List Bytes :=
  if c.published then
    (c.writes.flatMap fun w => defs.filterMap w.setKey).insertionSort (· ≤ ·)
  else []

/-- `record_conflicts` for some recorded range. -/
def Commit.conflicts (c : Commit) (defs : List SortedDef) (deps : List IndexRange) : Bool :=
  deps.any (indexRangeOverlapsSorted (c.insertedIndexKeys defs))

/-! ## The overlap test is exact -/

theorem pairwise_sort_keys (keys : List Bytes) : (keys.insertionSort (· ≤ ·)).Pairwise (· ≤ ·) := by
  exact pairwise_insertionSort _ _

theorem partitionPoint_spec {P : Bytes → Prop} [DecidablePred P] {keys : List Bytes}
    (hdown : ∀ {a b}, a ≤ b → P b → P a) (hsorted : keys.Pairwise (· ≤ ·)) {i : Nat} {k : Bytes}
    (hk : keys[i]? = some k) : i < partitionPoint (fun k => decide (P k)) keys ↔ P k := by
  unfold partitionPoint
  induction keys generalizing i with
  | nil => simp at hk
  | cons x keys ih =>
    rw [pairwise_cons] at hsorted
    by_cases hx : P x
    · rw [takeWhile_cons_of_pos (by simpa using hx), length_cons]
      cases i with
      | zero =>
        obtain rfl := some.inj hk
        simpa using hx
      | succ i =>
        rw [Nat.add_lt_add_iff_right]
        exact ih hsorted.2 (by simpa using hk)
    · rw [takeWhile_cons_of_neg (by simpa using hx)]
      cases i with
      | zero =>
        obtain rfl := some.inj hk
        simpa using hx
      | succ i =>
        by_contra hp
        have hmem : k ∈ keys := mem_of_getElem? (by simpa using hk)
        exact hx (hdown (hsorted.1 k hmem) (by simpa using hp))

/-- The lower end of a range, as a test of the keys below it. -/
def IndexRange.below (dep : IndexRange) (k : Bytes) : Bool :=
  match dep.lo with
  | .unbounded => false
  | .included b => decide (k < b)
  | .excluded b => decide (k ≤ b)

variable {dep : IndexRange}

theorem keyInInterval_iff {key : Bytes} :
    keyInInterval key dep = true ↔ sortedPrefix dep.indexId <+: key ∧ dep.below key = false ∧
      (match dep.hi with
        | .unbounded => true
        | .included b => decide (key ≤ b)
        | .excluded b => decide (key < b)) = true := by
  unfold keyInInterval IndexRange.below
  rw [Bool.and_eq_true, Bool.and_eq_true, isPrefixOf_iff_prefix, and_assoc]
  refine and_congr_right fun _ => and_congr ?_ ?_
  · cases dep.lo <;> simp
  · cases dep.hi <;> simp

/-- **The test of one candidate finds any key in the range.** -/
theorem indexRangeOverlapsSorted_iff {keys : List Bytes} (hsorted : keys.Pairwise (· ≤ ·))
    (dep : IndexRange) :
    indexRangeOverlapsSorted keys dep = true ↔ ∃ k ∈ keys, keyInInterval k dep = true := by
  have hbelow (b : Bytes) {i k} := @partitionPoint_spec (· < b) _ keys List.lt_of_le_of_lt hsorted i k
  -- where the search starts: the keys before it are below the prefix or below the range
  obtain ⟨start, hstart, hbefore⟩ : ∃ start, indexRangeOverlapsSorted keys dep =
      (match keys[start]? with | none => false | some k => keyInInterval k dep) ∧
      ∀ i k, keys[i]? = some k →
        (i < start ↔ k < sortedPrefix dep.indexId ∨ dep.below k = true) := by
    unfold indexRangeOverlapsSorted IndexRange.below
    cases dep.lo with
    | unbounded =>
      refine ⟨_, rfl, fun i k hk => ?_⟩
      rw [hbelow _ hk]
      simp
    | included b =>
      refine ⟨_, rfl, fun i k hk => ?_⟩
      rw [lt_max_iff, hbelow _ hk, hbelow b hk]
      simp
    | excluded b =>
      refine ⟨_, rfl, fun i k hk => ?_⟩
      rw [lt_max_iff, hbelow _ hk, partitionPoint_spec List.le_trans hsorted hk]
      simp
  rw [hstart]
  constructor
  · intro h
    cases hk : keys[start]? with
    | none => simp [hk] at h
    | some k =>
      rw [hk] at h
      exact ⟨k, mem_of_getElem? hk, h⟩
  rintro ⟨k, hmem, hin⟩
  obtain ⟨j, hj, rfl⟩ := getElem_of_mem hmem
  obtain ⟨⟨u, hu⟩, hbelow, hhi⟩ := keyInInterval_iff.1 hin
  have hle : start ≤ j := by
    by_contra hlt
    rcases (hbefore j _ (getElem?_eq_getElem hj)).1 (Nat.lt_of_not_le hlt) with h | h
    · rw [← hu] at h
      exact List.not_lt.2 (List.IsPrefix.le (List.prefix_append _ _)) h
    · rw [hbelow] at h
      simp at h
  have hlen : start < keys.length := by omega
  have hfirst : keys[start] ≤ keys[j] := by
    rcases Nat.lt_or_eq_of_le hle with hlt | rfl
    · exact pairwise_iff_getElem.1 hsorted start j hlen hj hlt
    · exact List.le_refl _
  have hnot := (hbefore start _ (getElem?_eq_getElem hlen)).not.1 (Nat.lt_irrefl _)
  rw [not_or, Bool.not_eq_true] at hnot
  rw [getElem?_eq_getElem hlen]
  refine keyInInterval_iff.2 ⟨?_, hnot.2, ?_⟩
  · refine @ByteOrder.starts_of_between _ [] u _ ?_ ?_
    · exact hnot.1
    · rw [hu]
      exact hfirst
  revert hhi
  cases dep.hi with
  | unbounded => exact id
  | included b =>
    simp only [decide_eq_true_eq]
    exact fun h => List.le_trans hfirst h
  | excluded b =>
    simp only [decide_eq_true_eq]
    exact fun h => List.lt_of_le_of_lt hfirst h

/-! ## Ranges of a filter -/

/-- The conjuncts a filter is mapped by. -/
def conjuncts : Filter → List Filter
  | .and filters => filters
  | f => [f]

/-- A bound that is a literal, or open. -/
def litBound : Option FilterValue → Option (Option ScalarRef)
  | none => some none
  | some value => (filterValueToQuery value).map some

/-- A leaf stands for a range of an index: its field is that of the index and its bounds are
literals. -/
def RangeOf (defs : List SortedDef) (f : Filter) (d : SortedDef) (lo hi : Option ScalarRef) :
    Prop :=
  ∃ r, leafRange f = some r ∧ litBound r.lo = some lo ∧ litBound r.hi = some hi ∧
    (internFieldPath ctx r.field).bind (findByField defs) = some d

variable {ctx}

variable {defs : List SortedDef} {lo hi : Option ScalarRef} {f : Filter} {filter : Filter}
  {d : SortedDef} {x : Option Bytes} {a b : Value}

theorem RangeOf.unique {d d' : SortedDef} {lo hi lo' hi' : Option ScalarRef}
    (h : RangeOf ctx defs f d lo hi) (h' : RangeOf ctx defs f d' lo' hi') :
    d = d' ∧ lo = lo' ∧ hi = hi' := by
  obtain ⟨r, hr, hlo, hhi, hd⟩ := h
  obtain ⟨r', hr', hlo', hhi', hd'⟩ := h'
  obtain rfl := some.inj (hr.symm.trans hr')
  exact ⟨some.inj (hd.symm.trans hd'), some.inj (hlo.symm.trans hlo'),
    some.inj (hhi.symm.trans hhi')⟩

theorem encodeBound_eq_some {value : Option FilterValue} (h : encodeBound value = some x) :
    ∃ l, litBound value = some l ∧ BoundCode l x := by
  cases value with
  | none =>
    obtain rfl := some.inj h
    exact ⟨none, rfl, trivial⟩
  | some value =>
    obtain ⟨y, hy, rfl⟩ := map_eq_some_iff.1 h
    have hlit : ∃ l, value = .lit l ∧ encodeForSort l = some y := by
      unfold encodeFilterValue at hy
      split at hy
      · simp at hy
      · exact ⟨_, rfl, hy⟩
      · simp at hy
    obtain ⟨l, rfl, hl⟩ := hlit
    exact ⟨some l, rfl, hl⟩

/-- A range that was recorded for a leaf. -/
theorem predicateHandleOne_spec (h : predicateHandleOne ctx defs f = some dep) :
    ∃ d lo hi x y, RangeOf ctx defs f d lo hi ∧ BoundCode lo x ∧ BoundCode hi y ∧ d ∈ defs ∧
      dep = ⟨d.name, .included (rangeBounds d.name x y).1,
        .included (rangeBounds d.name x y).2⟩ := by
  unfold predicateHandleOne at h
  split at h
  case h_1 => simp at h
  case h_2 r hr =>
    split at h
    case h_2 => simp at h
    case h_1 x y hx hy =>
      split at h
      case h_1 => simp at h
      case h_2 d hd =>
        obtain ⟨lo, hlo, hlox⟩ := encodeBound_eq_some hx
        obtain ⟨hi, hhi, hhiy⟩ := encodeBound_eq_some hy
        obtain ⟨path, -, hfind⟩ := bind_eq_some_iff.1 hd
        exact ⟨d, lo, hi, x, y, ⟨r, hr, hlo, hhi, hd⟩, hlox, hhiy,
          mem_of_find?_eq_some hfind, (some.inj h).symm⟩

/-- The recorded ranges are those of the conjuncts, one for each. -/
theorem map_predicateHandleOne (h : predicateToIndexRange ctx defs filter ≠ []) :
    (conjuncts filter).map (predicateHandleOne ctx defs) =
      (predicateToIndexRange ctx defs filter).map some := by
  have hmapM : ∀ (fs : List Filter) (deps : List IndexRange),
      fs.mapM (predicateHandleOne ctx defs) = some deps →
        fs.map (predicateHandleOne ctx defs) = deps.map some := by
    intro fs
    induction fs with
    | nil =>
      intro deps hdeps
      rw [← some.inj hdeps]
      rfl
    | cons f fs ih =>
      intro deps hdeps
      rw [mapM_cons] at hdeps
      obtain ⟨dep, hdep, hrest⟩ := bind_eq_some_iff.1 hdeps
      obtain ⟨rest, hrest, heq⟩ := bind_eq_some_iff.1 hrest
      rw [← some.inj heq, map_cons, hdep, ih rest hrest]
      rfl
  unfold predicateToIndexRange at h ⊢
  split at h
  · rename_i filters
    cases hdeps : filters.mapM (predicateHandleOne ctx defs) with
    | none => exact absurd (by rw [hdeps]; rfl) h
    | some deps => exact hmapM filters deps hdeps
  rename_i hnot
  have hconj : conjuncts filter = [filter] := by
    unfold conjuncts
    split
    · exact absurd rfl (hnot _)
    · rfl
  rw [hconj]
  cases hdep : predicateHandleOne ctx defs filter with
  | none => exact absurd (by rw [hdep]; rfl) h
  | some dep => simp [hdep]

theorem litBound_eq_some {value : FilterValue} {l : Option ScalarRef}
    (h : litBound (some value) = some l) : ∃ a, value = .lit a ∧ l = some a := by
  obtain ⟨a, ha, rfl⟩ := map_eq_some_iff.1 h
  cases value with
  | lit b => exact ⟨b, rfl, by rw [some.inj ha]⟩
  | dynamic _ | column _ => simp [filterValueToQuery] at ha

/-- A leaf with a range reads the field of its index only. -/
theorem RangeOf.matches_congr (h : RangeOf ctx defs f d lo hi)
    (hab : descendPath a d.path = descendPath b d.path) : f.matches ctx a = f.matches ctx b := by
  obtain ⟨r, hr, hlo, hhi, hd⟩ := h
  obtain ⟨path, hpath, hfind⟩ := bind_eq_some_iff.1 hd
  have htest := find?_some hfind
  obtain rfl : d.path = path := of_decide_eq_true htest
  have hscalar : scalarAt a d.path = scalarAt b d.path := by rw [scalarAt, hab, scalarAt]
  unfold leafRange at hr
  split at hr
  case h_8 => simp at hr
  case h_7 =>
    obtain rfl := some.inj hr
    obtain ⟨l, rfl, -⟩ := litBound_eq_some hlo
    obtain ⟨u, rfl, -⟩ := litBound_eq_some hhi
    rw [Filter.matches_of_path hpath rfl, Filter.matches_of_path hpath rfl]
    simp only [FilterNode.matches, FilterValue.resolve, hscalar]
  case h_3 | h_4 =>
    obtain rfl := some.inj hr
    obtain ⟨u, rfl, -⟩ := litBound_eq_some hhi
    rw [Filter.matches_of_path hpath rfl, Filter.matches_of_path hpath rfl]
    simp only [FilterNode.matches, FilterValue.resolve, hab]
  all_goals
    obtain rfl := some.inj hr
    obtain ⟨l, rfl, -⟩ := litBound_eq_some hlo
    rw [Filter.matches_of_path hpath rfl, Filter.matches_of_path hpath rfl]
    simp only [FilterNode.matches, FilterValue.resolve, hab]

/-- Two rows with the same value in the index of a leaf are told apart by other fields only. -/
theorem RangeOf.matches_of_value (h : RangeOf ctx defs f d lo hi) {id : RecordId} {v : ScalarRef}
    (ha : d.value (id, a) = some v) (hb : d.value (id, b) = some v) :
    f.matches ctx a = f.matches ctx b := by
  have hdescend : ∀ {r : Value}, d.value (id, r) = some v → descendPath r d.path = some v.toValue := by
    intro r hr
    obtain ⟨hr, -⟩ := filter_eq_some_iff.1 hr
    obtain ⟨w, hw, hs⟩ := bind_eq_some_iff.1 hr
    rw [hw, Value.toValue_of_toScalar hs]
  exact h.matches_congr ((hdescend ha).trans (hdescend hb).symm)

theorem matches_iff_conjuncts (filter : Filter) (record : Value) :
    filter.matches ctx record = true ↔ ∀ f ∈ conjuncts filter, f.matches ctx record = true := by
  unfold conjuncts
  split
  · exact Filter.matches_and ctx _ record
  · simp

/-- A row's posting is in the recorded range of a leaf exactly if its value is between the
bounds, in the order of the index. -/
theorem posting_in_range_iff {y : Option Bytes} (hlo : BoundCode lo x) (hhi : BoundCode hi y)
    (row : Row) :
    (∃ key, d.posting row = some key ∧ keyInInterval key ⟨d.name,
      .included (rangeBounds d.name x y).1, .included (rangeBounds d.name x y).2⟩ = true) ↔
      ∃ v, d.value row = some v ∧ inBounds lo hi v = true := by
  constructor
  · rintro ⟨key, hkey, hin⟩
    obtain ⟨v, e, hv, he, rfl⟩ := SortedDef.posting_eq_some.1 hkey
    obtain ⟨-, hbelow, habove⟩ := keyInInterval_iff.1 hin
    simp only [IndexRange.below, decide_eq_false_iff_not] at hbelow
    simp only [decide_eq_true_eq] at habove
    exact ⟨v, hv, (key_in_bounds_iff he hlo hhi).1 ⟨hbelow, habove⟩⟩
  · rintro ⟨v, hv, hin⟩
    obtain ⟨e, he⟩ := SortedDef.exists_code hv
    obtain ⟨hbelow, habove⟩ : (rangeBounds d.name x y).1 ≤ sortedPostingKey d.name e row.1 ∧
        sortedPostingKey d.name e row.1 ≤ (rangeBounds d.name x y).2 :=
      (key_in_bounds_iff he hlo hhi).2 hin
    refine ⟨_, SortedDef.posting_eq_some.2 ⟨v, e, hv, he, rfl⟩, keyInInterval_iff.2 ⟨?_, ?_, ?_⟩⟩
    · exact prefix_append _ _
    · simpa [IndexRange.below] using hbelow
    · simpa using habove

/-! ## Commits and ranges -/

/-- A matching record is covered: it has a posting in every recorded range. -/
def Covered (defs : List SortedDef) (deps : List IndexRange) (row : Row) : Prop :=
  ∀ dep ∈ deps, ∃ d ∈ defs, d.name = dep.indexId ∧
    ∃ key, d.posting row = some key ∧ keyInInterval key dep = true

/-- The fields of a record are inside the ranges of all conjuncts, in the order of the index. -/
def InRanges (ctx : FilterContext) (defs : List SortedDef) (filter : Filter) (row : Row) : Prop :=
  ∀ f ∈ conjuncts filter, ∀ d lo hi, RangeOf ctx defs f d lo hi →
    ∃ v, d.value row = some v ∧ inBounds lo hi v = true

/-- A write gives a row a new value inside the range of some conjunct, in the order of the
index (or a new projection with such a value). -/
def SetsInside (ctx : FilterContext) (defs : List SortedDef) (filter : Filter) (w : RowWrite) :
    Prop :=
  ∃ f ∈ conjuncts filter, ∃ d lo hi, RangeOf ctx defs f d lo hi ∧ ∃ new v, w.new = some new ∧
    d.value (w.id, new) = some v ∧ inBounds lo hi v = true ∧
      ((∀ old, w.old = some old → d.value (w.id, old) ≠ some v) ∨
        (w.old ≠ none ∧ w.projChanged d = true))

section

variable (h : predicateToIndexRange ctx defs filter ≠ [])
include h

theorem mem_predicateToIndexRange : dep ∈ predicateToIndexRange ctx defs filter ↔
    ∃ f ∈ conjuncts filter, predicateHandleOne ctx defs f = some dep := by
  rw [← List.mem_map, map_predicateHandleOne h]
  simp

theorem exists_dep (hf : f ∈ conjuncts filter) :
    ∃ dep, predicateHandleOne ctx defs f = some dep := by
  have hmem := mem_map_of_mem (f := predicateHandleOne ctx defs) hf
  rw [map_predicateHandleOne h] at hmem
  obtain ⟨dep, -, hdep⟩ := List.mem_map.1 hmem
  exact ⟨dep, hdep.symm⟩

end

section
variable {defs : List SortedDef} (hnamed : (defs.map SortedDef.name).Nodup) {filter : Filter}
  (hdeps : predicateToIndexRange ctx defs filter ≠ [])
include hnamed hdeps

/-- **Coverage in the order of the index.** -/
theorem covered_iff (row : Row) :
    Covered defs (predicateToIndexRange ctx defs filter) row ↔ InRanges ctx defs filter row := by
  constructor
  · intro h f hf d lo hi hrange
    obtain ⟨dep, hdep⟩ := exists_dep hdeps hf
    obtain ⟨d₁, lo₁, hi₁, x, y, hrange₁, hlo, hhi, hd, rfl⟩ := predicateHandleOne_spec hdep
    obtain ⟨rfl, rfl, rfl⟩ := hrange.unique hrange₁
    obtain ⟨d', hd', hname, hkey⟩ := h _ ((mem_predicateToIndexRange hdeps).2 ⟨f, hf, hdep⟩)
    obtain rfl : d' = d := inj_on_of_nodup_map hnamed hd' hd hname
    exact (posting_in_range_iff hlo hhi row).1 hkey
  · intro h dep hmem
    obtain ⟨f, hf, hdep⟩ := (mem_predicateToIndexRange hdeps).1 hmem
    obtain ⟨d, lo, hi, x, y, hrange, hlo, hhi, hd, rfl⟩ := predicateHandleOne_spec hdep
    exact ⟨d, hd, rfl, (posting_in_range_iff hlo hhi row).2 (h f hf d lo hi hrange)⟩

omit hnamed hdeps in
theorem RowWrite.setKey_eq_some {w : RowWrite} {d : SortedDef} {key : Bytes} :
    w.setKey d = some key ↔ ∃ new, w.new = some new ∧ d.posting (w.id, new) = some key ∧
      ((∀ old, w.old = some old → d.value (w.id, old) ≠ d.value (w.id, new)) ∨
        (w.old ≠ none ∧ w.projChanged d = true)) := by
  have hcode : ∀ {o n : Value}, d.posting (w.id, n) = some key →
      (extractAndEncode o d.path ≠ extractAndEncode n d.path ↔
        d.value (w.id, o) ≠ d.value (w.id, n)) := by
    intro o n hn
    have hvalue : ∀ r : Value, extractAndEncode r d.path = (d.value (w.id, r)).bind encodeForSort := by
      intro r
      unfold extractAndEncode SortedDef.value
      cases hr : scalarAt r d.path with
      | none => simp
      | some v =>
        cases hnan : v.toValue.isNaN with
        | false => simp [Option.filter, hnan]
        | true =>
          have hnone : encodeForSort v = none := by
            cases hx : encodeForSort v with
            | none => rfl
            | some x => exact absurd (hnan.symm.trans (encodeForSort_eq_some.1 hx).1) (by simp)
          simp [Option.filter, hnan, hnone]
    rw [hvalue, hvalue]
    refine not_congr ⟨fun h => ?_, fun h => by rw [h]⟩
    obtain ⟨v, x, hv, hx, -⟩ := SortedDef.posting_eq_some.1 hn
    rw [hv, bind_some, hx] at h
    obtain ⟨v', hv', hx'⟩ := bind_eq_some_iff.1 h
    rw [hv, hv', encodeForSort_inj hx hx']
  unfold RowWrite.setKey
  rcases w.old with _ | o <;> rcases w.new with _ | n
  · simp
  · simp
  · simp
  simp only [some.injEq, exists_eq_left', forall_eq', reduceCtorEq, not_false_eq_true,
    ne_eq, true_and]
  constructor
  · intro h
    split at h
    · rename_i hchanged
      refine ⟨h, ?_⟩
      rcases hchanged with hc | hc
      · exact .inl ((hcode h).1 hc)
      · exact .inr hc
    · simp at h
  · rintro ⟨h, hchanged⟩
    rw [if_pos]
    · exact h
    · rcases hchanged with hc | hc
      · exact .inl ((hcode h).2 hc)
      · exact .inr hc

/-- **A conflict is reported** exactly if the commit publishes its keys and sets a posting
inside a range. -/
theorem Commit.conflicts_iff (c : Commit) :
    c.conflicts defs (predicateToIndexRange ctx defs filter) = true ↔
      c.published = true ∧ ∃ w ∈ c.writes, SetsInside ctx defs filter w := by
  have hsorted : (c.insertedIndexKeys defs).Pairwise (· ≤ ·) := by
    unfold Commit.insertedIndexKeys
    split
    · exact pairwise_sort_keys _
    · exact List.Pairwise.nil
  have hmem : ∀ key, key ∈ c.insertedIndexKeys defs ↔
      c.published = true ∧ ∃ w ∈ c.writes, ∃ d ∈ defs, w.setKey d = some key := by
    unfold Commit.insertedIndexKeys
    cases c.published <;> simp [mem_insertionSort]
  rw [Commit.conflicts, List.any_eq_true]
  simp only [indexRangeOverlapsSorted_iff hsorted]
  constructor
  · rintro ⟨dep, hdep, key, hkey, hin⟩
    obtain ⟨f, hf, hdep⟩ := (mem_predicateToIndexRange hdeps).1 hdep
    obtain ⟨hpub, w, hw, d, hd, hset⟩ := (hmem key).1 hkey
    obtain ⟨d', lo, hi, x, y, hrange, hlo, hhi, hd', rfl⟩ := predicateHandleOne_spec hdep
    obtain ⟨new, hnew, hpost, hchanged⟩ := RowWrite.setKey_eq_some.1 hset
    have hsame : d = d' := by
      obtain ⟨v, e, -, -, rfl⟩ := SortedDef.posting_eq_some.1 hpost
      obtain ⟨u, hu⟩ := (keyInInterval_iff.1 hin).1
      obtain ⟨hprefixes, -⟩ := append_inj hu (by simp [sortedPrefix])
      exact inj_on_of_nodup_map hnamed hd hd' (sortedPrefix_inj hprefixes.symm)
    subst hsame
    obtain ⟨v, hv, hbounds⟩ := (posting_in_range_iff hlo hhi (w.id, new)).1 ⟨key, hpost, hin⟩
    rw [hv] at hchanged
    exact ⟨hpub, w, hw, f, hf, d, lo, hi, hrange, new, v, hnew, hv, hbounds, hchanged⟩
  · rintro ⟨hpub, w, hw, f, hf, d, lo, hi, hrange, new, v, hnew, hv, hbounds, hchanged⟩
    obtain ⟨dep, hdep⟩ := exists_dep hdeps hf
    obtain ⟨d', lo', hi', x, y, hrange', hlo, hhi, hd, rfl⟩ := predicateHandleOne_spec hdep
    obtain ⟨rfl, rfl, rfl⟩ := hrange.unique hrange'
    obtain ⟨key, hkey, hin⟩ := (posting_in_range_iff hlo hhi (w.id, new)).2 ⟨v, hv, hbounds⟩
    refine ⟨_, (mem_predicateToIndexRange hdeps).2 ⟨f, hf, hdep⟩, key,
      (hmem key).2 ⟨hpub, w, hw, d, hd, ?_⟩, hin⟩
    exact RowWrite.setKey_eq_some.2 ⟨new, hnew, hkey, by rwa [hv]⟩

omit hnamed in
theorem SetsInside.of_enters {w : RowWrite} {new : Value} (hnew : w.new = some new)
    (hmatch : filter.matches ctx new = true)
    (hold : ∀ old, w.old = some old → filter.matches ctx old = false)
    (hin : InRanges ctx defs filter (w.id, new)) : SetsInside ctx defs filter w := by
  -- a conjunct that the old row, if there is one, does not match
  obtain ⟨f, hf, hfold⟩ : ∃ f ∈ conjuncts filter,
      ∀ old, w.old = some old → f.matches ctx old ≠ true := by
    cases hw : w.old with
    | none =>
      obtain ⟨dep, hdep⟩ := exists_mem_of_ne_nil _ hdeps
      obtain ⟨f, hf, -⟩ := (mem_predicateToIndexRange hdeps).1 hdep
      exact ⟨f, hf, fun old h => absurd h (by simp)⟩
    | some o =>
      have hnot : ¬ ∀ f ∈ conjuncts filter, f.matches ctx o = true := by
        rw [← matches_iff_conjuncts, hold o hw]
        simp
      push Not at hnot
      obtain ⟨f, hf, hfo⟩ := hnot
      refine ⟨f, hf, fun old h => ?_⟩
      rwa [← some.inj h]
  obtain ⟨dep, hdep⟩ := exists_dep hdeps hf
  obtain ⟨d, lo, hi, -, -, hrangeOf, -⟩ := predicateHandleOne_spec hdep
  obtain ⟨v, hv, hbounds⟩ := hin f hf d lo hi hrangeOf
  refine ⟨f, hf, d, lo, hi, hrangeOf, new, v, hnew, hv, hbounds, .inl fun old ho hvo => ?_⟩
  apply hfold old ho
  rw [hrangeOf.matches_of_value hvo hv]
  exact (matches_iff_conjuncts filter new).1 hmatch f hf

/-- **When the ranges cover the filter.**  For one write of a commit: the records that match
before and after have their keys in the recorded ranges, and a change of membership is reported,
exactly if the index orders those records inside the ranges, a row that enters is part of a
commit that publishes its keys, and a row that leaves is part of one that also sets a posting
inside a range. -/
theorem predicateToIndexRange_covers_iff (c : Commit) {w : RowWrite} (hw : w ∈ c.writes) :
    ((∀ r ∈ w.old.toList ++ w.new.toList, filter.matches ctx r = true →
        Covered defs (predicateToIndexRange ctx defs filter) (w.id, r)) ∧
      (w.old.any (filter.matches ctx) ≠ w.new.any (filter.matches ctx) →
        c.conflicts defs (predicateToIndexRange ctx defs filter) = true)) ↔
      (∀ r ∈ w.old.toList ++ w.new.toList, filter.matches ctx r = true →
        InRanges ctx defs filter (w.id, r)) ∧
      (w.old.any (filter.matches ctx) = false → w.new.any (filter.matches ctx) = true →
        c.published = true) ∧
      (w.old.any (filter.matches ctx) = true → w.new.any (filter.matches ctx) = false →
        c.published = true ∧ ∃ w' ∈ c.writes, SetsInside ctx defs filter w') := by
  simp only [covered_iff hnamed hdeps, c.conflicts_iff hnamed hdeps]
  refine and_congr_right fun hin => ?_
  constructor
  · intro h
    exact ⟨fun ho hn => (h (by rw [ho, hn]; simp)).1, fun ho hn => h (by rw [ho, hn]; simp)⟩
  rintro ⟨henters, hleaves⟩ hne
  cases ho : w.old.any (filter.matches ctx) with
  | true =>
    have hn : w.new.any (filter.matches ctx) = false := by
      rw [ho] at hne
      simpa using hne.symm
    exact hleaves ho hn
  | false =>
    have hn : w.new.any (filter.matches ctx) = true := by
      rw [ho] at hne
      simpa using hne.symm
    refine ⟨henters ho hn, w, hw, ?_⟩
    obtain ⟨new, hnew, hmatch⟩ := (any_eq_true _ _).1 hn
    refine SetsInside.of_enters hdeps hnew hmatch ?_ (hin new (by simp [hnew]) hmatch)
    intro old hold
    rw [hold] at ho
    exact ho

end

/-- A row of integers enters a range. -/
theorem predicateToIndexRange_covers_int :
    Covered [⟨7, [1], true⟩] (predicateToIndexRange oneField [⟨7, [1], true⟩]
        (.compare .lte ["n"] (.lit (.int 5)))) (firstId, .map [(1, .int 3)]) ∧
      Commit.conflicts ⟨[⟨firstId, none, some (.map [(1, .int 3)]), fun _ => false⟩], true⟩
        [⟨7, [1], true⟩] (predicateToIndexRange oneField [⟨7, [1], true⟩]
          (.compare .lte ["n"] (.lit (.int 5)))) = true := by
  have hmatch : (Filter.compare .lte ["n"] (.lit (.int 5))).matches oneField
      (.map [(1, .int 3)]) = true := by decide +kernel
  have hdeps : predicateToIndexRange oneField [⟨7, [1], true⟩]
      (.compare .lte ["n"] (.lit (.int 5))) ≠ [] := by decide
  have hnamed : (map SortedDef.name [⟨7, [1], true⟩]).Nodup := nodup_singleton _
  have hin : InRanges oneField [⟨7, [1], true⟩] (.compare .lte ["n"] (.lit (.int 5)))
      (firstId, .map [(1, .int 3)]) := by
    rintro f hf d lo hi ⟨r, hr, hlo, hhi, hd⟩
    obtain rfl := mem_singleton.1 hf
    obtain rfl := some.inj hr
    obtain rfl := some.inj hlo
    obtain rfl := some.inj hhi
    obtain rfl := some.inj hd
    exact ⟨.int 3, by decide +kernel, by decide +kernel⟩
  obtain ⟨hcovered, hconflict⟩ := (predicateToIndexRange_covers_iff hnamed hdeps
    ⟨[⟨firstId, none, some (.map [(1, .int 3)]), fun _ => false⟩], true⟩
    (mem_singleton.2 rfl)).2
    ⟨fun r hr _ => by rw [mem_singleton.1 hr]; exact hin, fun _ _ => rfl,
      fun h _ => absurd h (by simp)⟩
  exact ⟨hcovered _ (by simp) hmatch, hconflict (by simp [hmatch])⟩

/-- **A float that matches an integer bound is outside of its range**, and the commit that adds
it goes unnoticed: `1.0` and a filter `n ≤ 5`. -/
theorem predicateToIndexRange_float_missed :
    predicateToIndexRange oneField [⟨7, [1], true⟩] (.compare .lte ["n"] (.lit (.int 5))) ≠ [] ∧
      (Filter.compare .lte ["n"] (.lit (.int 5))).matches oneField
        (.map [(1, .f64 ⟨0x3FF0000000000000⟩)]) = true ∧
      ¬ Covered [⟨7, [1], true⟩] (predicateToIndexRange oneField [⟨7, [1], true⟩]
        (.compare .lte ["n"] (.lit (.int 5)))) (firstId, .map [(1, .f64 ⟨0x3FF0000000000000⟩)]) ∧
      Commit.conflicts ⟨[⟨firstId, none, some (.map [(1, .f64 ⟨0x3FF0000000000000⟩)]),
          fun _ => false⟩], true⟩ [⟨7, [1], true⟩]
        (predicateToIndexRange oneField [⟨7, [1], true⟩]
          (.compare .lte ["n"] (.lit (.int 5)))) = false := by
  refine ⟨by decide, by decide +kernel, fun h => ?_, by decide +kernel⟩
  obtain ⟨d, hd, -, key, hkey, hin⟩ := h _ (mem_singleton.2 rfl)
  obtain rfl := mem_singleton.1 hd
  obtain rfl := some.inj hkey
  exact absurd hin (by decide +kernel)

end ShamirDb.Query
