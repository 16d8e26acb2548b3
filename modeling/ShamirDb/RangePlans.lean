/-
# Plans over sorted indexes

The planner for range filters (`try_plan_sorted_index_scan`, `try_plan_and_range_index_scan`)
and the scan of its plans (`read_sorted_index_scan`).  A plan is a window of codes; the range
itself is not checked again on the rows, except that a strict bound leaves an inequality.

The window follows the order of the index, which sorts by type first.  The filter compares
integers with floats by value, takes the two zeros for equal and rejects values of other types.
A plan is right exactly where the two agree on the values that are stored.
-/
import ShamirDb.SortedIndex
import ShamirDb.EqualityPlans

namespace ShamirDb.Query

open List

/-! ## The planner -/

/-- What the planner returns.  The source returns the first four; `range` and `others` record
the conjunct the window stands for and the remaining ones. -/
structure RangePlan where
  name : UInt64
  lower : Option Bytes
  upper : Option Bytes
  residual : Option Filter
  range : Filter
  others : List Filter

/-- `encode_filter_value_for_sort`. -/
def encodeFilterValueForSort : FilterValue → Option Bytes
  | .lit s => encodeForSort s
  | _ => none

variable (ctx : FilterContext)

/-- The ready index on a field. -/
def readyIndex (defs : List SortedDef) (field : List String) : Option SortedDef :=
  (internFieldPath ctx field).bind (findByFieldReady defs)

/-- `try_plan_sorted_index_scan`. -/
def tryPlanSortedIndexScan (defs : List SortedDef) (f : Filter) : Option RangePlan :=
  match f with
  | .between field lo hi =>
    match readyIndex ctx defs field, encodeFilterValueForSort lo, encodeFilterValueForSort hi with
    | some d, some lower, some upper => some ⟨d.name, some lower, some upper, none, f, []⟩
    | _, _, _ => none
  | .compare .gte field value =>
    match readyIndex ctx defs field, encodeFilterValueForSort value with
    | some d, some lower => some ⟨d.name, some lower, none, none, f, []⟩
    | _, _ => none
  | .compare .lte field value =>
    match readyIndex ctx defs field, encodeFilterValueForSort value with
    | some d, some upper => some ⟨d.name, none, some upper, none, f, []⟩
    | _, _ => none
  -- strict bounds take the inclusive window and leave the inequality
  | .compare .gt field value =>
    match readyIndex ctx defs field, encodeFilterValueForSort value with
    | some d, some lower =>
      some ⟨d.name, some lower, none, some (.compare .ne field value), f, []⟩
    | _, _ => none
  | .compare .lt field value =>
    match readyIndex ctx defs field, encodeFilterValueForSort value with
    | some d, some upper =>
      some ⟨d.name, none, some upper, some (.compare .ne field value), f, []⟩
    | _, _ => none
  | _ => none

/-- `try_plan_and_range_index_scan`: the first conjunct that is a range over an index. -/
def tryPlanAndRangeIndexScan (defs : List SortedDef) (f : Filter) : Option RangePlan :=
  match f with
  | .and filters =>
    filters.zipIdx.findSome? fun p =>
      (tryPlanSortedIndexScan ctx defs p.1).map fun plan =>
        let others := (filters.zipIdx.filter fun q => decide (q.2 ≠ p.2)).map Prod.fst
        { plan with residual := conjoin (others ++ plan.residual.toList), others := others }
  | _ => none

/-- The two planners as `read_impl` calls them. -/
def planRange (defs : List SortedDef) (f : Filter) : Option RangePlan :=
  (tryPlanSortedIndexScan ctx defs f).or (tryPlanAndRangeIndexScan ctx defs f)

/-- `read_sorted_index_scan`, up to the rows it goes on to project. -/
def readSortedIndexScan (keys : List Bytes) (table : Table) (plan : RangePlan) : List Row :=
  (lookupRange keys plan.name plan.lower plan.upper).filterMap fun id =>
    match table.get id with
    | some record => if residualMatches ctx plan.residual record then some (id, record) else none
    | none => none

/-! ## Range leaves -/

/-- A range over literals: the bounds, and whether they are strict. -/
structure RangeLeaf where
  field : List String
  lo : Option ScalarRef
  hi : Option ScalarRef
  strict : Bool
  /-- `Between` compares scalars only. -/
  scalars : Bool

def rangeLeaf : Filter → Option RangeLeaf
  | .between field (.lit lo) (.lit hi) => some ⟨field, some lo, some hi, false, true⟩
  | .compare .gte field (.lit l) => some ⟨field, some l, none, false, false⟩
  | .compare .lte field (.lit l) => some ⟨field, none, some l, false, false⟩
  | .compare .gt field (.lit l) => some ⟨field, some l, none, true, false⟩
  | .compare .lt field (.lit l) => some ⟨field, none, some l, true, false⟩
  | _ => none

/-- Between the bounds in the order of the index, and for strict bounds not equal to one. -/
def RangeLeaf.inIndex (r : RangeLeaf) (a : ScalarRef) : Bool :=
  !a.toValue.isNaN && inBounds r.lo r.hi a &&
    (!r.strict || (r.lo.toList ++ r.hi.toList).all fun l => !decide (SameClass a.toValue l.toValue))

/-- A comparison that puts a value on the inner side of a bound. -/
def RangeLeaf.lowerOp (r : RangeLeaf) : CompareOp := if r.strict then .gt else .gte

def RangeLeaf.upperOp (r : RangeLeaf) : CompareOp := if r.strict then .lt else .lte

/-- Between the bounds in the comparison of filters. -/
def RangeLeaf.inFilter (lib : NumericLib) (r : RangeLeaf) (v : Value) : Bool :=
  match v.toScalar with
  | some a =>
    r.lo.all (fun l => r.lowerOp.holds false (scalarRefCmpQv lib a l.toValue)) &&
      r.hi.all (fun h => r.upperOp.holds false (scalarRefCmpQv lib a h.toValue))
  | none =>
    !r.scalars && r.lo.all (fun l => r.lowerOp.holds false (compareValues lib v l.toValue)) &&
      r.hi.all (fun h => r.upperOp.holds false (compareValues lib v h.toValue))

/-- **Index and filter agree on a value**: a scalar is between the bounds in one order exactly
if it is in the other, and what the index does not hold is in no range. -/
def RangeLeaf.Agrees (lib : NumericLib) (r : RangeLeaf) (v : Value) : Prop :=
  match v.toScalar with
  | some a => r.inIndex a = r.inFilter lib v
  | none => r.inFilter lib v = false

instance (lib : NumericLib) (r : RangeLeaf) (v : Value) : Decidable (r.Agrees lib v) := by
  unfold RangeLeaf.Agrees
  split <;> infer_instance

variable {ctx}

variable {plan : RangePlan} {defs : List SortedDef} {filter f : Filter} {r : RangeLeaf}
  {d : SortedDef} {path : List Nat} {field : List String}

theorem rangeLeaf_matches_iff (hf : rangeLeaf f = some r)
    (hpath : internFieldPath ctx r.field = some path) (record : Value) :
    f.matches ctx record = true ↔
      ∃ v, descendPath record path = some v ∧ r.inFilter ctx.lib v = true := by
  unfold rangeLeaf at hf
  split at hf
  case h_1 field lo hi =>
    obtain rfl := Option.some.inj hf
    rw [Filter.matches_of_path hpath rfl]
    simp only [FilterNode.matches, FilterValue.resolve, scalarAt]
    cases hv : descendPath record path with
    | none => simp [matchBetween]
    | some v =>
      simp only [Option.bind_some, Option.some.injEq, exists_eq_left', RangeLeaf.inFilter]
      cases hs : v.toScalar with
      | none => simp [matchBetween]
      | some a => simp [matchBetween, RangeLeaf.lowerOp, RangeLeaf.upperOp]
  case h_6 => simp at hf
  all_goals
    obtain rfl := Option.some.inj hf
    rw [Filter.matches_of_path hpath rfl]
    simp only [FilterNode.matches, FilterValue.resolve]
    cases hv : descendPath record path with
    | none => simp [matchCompare]
    | some v =>
      simp only [Option.some.injEq, exists_eq_left', RangeLeaf.inFilter, matchCompare]
      cases hs : v.toScalar with
      | none | some a => simp [RangeLeaf.lowerOp, RangeLeaf.upperOp, CompareOp.holds]

/-- The inequality a strict bound leaves, on a scalar. -/
theorem ne_matches_iff {l : ScalarRef} (hpath : internFieldPath ctx field = some path)
    {record : Value} {a : ScalarRef} (ha : scalarAt record path = some a) :
    (Filter.compare .ne field (.lit l)).matches ctx record = true ↔
      ¬ SameClass a.toValue l.toValue := by
  obtain ⟨v, hv, hs⟩ := Option.bind_eq_some_iff.1 ha
  have hne : (Filter.compare .ne field (.lit l)).matches ctx record =
      !matchCompare ctx.lib .eq (some v) (some l.toValue) := by
    rw [Filter.matches_of_path hpath rfl, FilterNode.matches, FilterValue.resolve, hv]
    simp only [matchCompare, hs, CompareOp.holds]
  have hspelled : ¬ Spelled a.toValue l := by cases a <;> exact id
  rw [hne, Bool.not_eq_true', ← Bool.not_eq_true, matchCompare_eq_lit, Value.toValue_of_toScalar hs]
  simp [hspelled]

/-- What a plan has to do with its filter. -/
structure RangePlan.Covers (ctx : FilterContext) (plan : RangePlan) (d : SortedDef)
    (r : RangeLeaf) (filter : Filter) : Prop where
  name : plan.name = d.name
  leaf : rangeLeaf plan.range = some r
  path : internFieldPath ctx r.field = some d.path
  lower : BoundCode r.lo plan.lower
  upper : BoundCode r.hi plan.upper
  conjuncts : ∀ record, filter.matches ctx record = true ↔
    plan.range.matches ctx record = true ∧ ∀ f ∈ plan.others, f.matches ctx record = true
  residual : ∀ record a, scalarAt record d.path = some a →
    (residualMatches ctx plan.residual record = true ↔
      (∀ f ∈ plan.others, f.matches ctx record = true) ∧
        (r.strict = true → ∀ l ∈ r.lo.toList ++ r.hi.toList, ¬ SameClass a.toValue l.toValue))

theorem readyIndex_eq_some (h : readyIndex ctx defs field = some d) :
    d ∈ defs ∧ internFieldPath ctx field = some d.path := by
  obtain ⟨path, hpath, hfind⟩ := Option.bind_eq_some_iff.1 h
  have hfound := (Option.filter_eq_some_iff.1 hfind).1
  have htest := find?_some hfound
  have heq : d.path = path := of_decide_eq_true htest
  exact ⟨mem_of_find?_eq_some hfound, heq ▸ hpath⟩

theorem encodeFilterValueForSort_eq_some {value : FilterValue} {x : Bytes}
    (h : encodeFilterValueForSort value = some x) :
    ∃ l, value = .lit l ∧ encodeForSort l = some x := by
  cases value <;> simp_all [encodeFilterValueForSort]

theorem tryPlanSortedIndexScan_covers (h : tryPlanSortedIndexScan ctx defs f = some plan) :
    ∃ d ∈ defs, ∃ r, plan.Covers ctx d r f ∧ plan.range = f ∧ plan.others = [] ∧
      ∀ record a, scalarAt record d.path = some a →
        ((∀ g ∈ plan.residual.toList, g.matches ctx record = true) ↔
          (r.strict = true → ∀ l ∈ r.lo.toList ++ r.hi.toList, ¬ SameClass a.toValue l.toValue)) := by
  unfold tryPlanSortedIndexScan at h
  split at h
  case h_1 field lo hi =>
    split at h
    case h_2 => simp at h
    case h_1 d x y hd hx hy =>
      obtain ⟨hmem, hpath⟩ := readyIndex_eq_some hd
      obtain ⟨l, rfl, hl⟩ := encodeFilterValueForSort_eq_some hx
      obtain ⟨u, rfl, hu⟩ := encodeFilterValueForSort_eq_some hy
      obtain rfl := Option.some.inj h
      exact ⟨d, hmem, _, ⟨rfl, rfl, hpath, hl, hu, fun _ => by simp,
        fun _ _ _ => by simp [residualMatches]⟩, rfl, rfl, fun _ _ _ => by simp⟩
  case h_6 => simp at h
  all_goals
    split at h
    case h_2 => simp at h
    case h_1 d x hd hx =>
      obtain ⟨hmem, hpath⟩ := readyIndex_eq_some hd
      obtain ⟨l, rfl, hl⟩ := encodeFilterValueForSort_eq_some hx
      obtain rfl := Option.some.inj h
      refine ⟨d, hmem, _, ⟨rfl, rfl, hpath, ?_, ?_, fun _ => by simp, fun record a ha => ?_⟩, rfl, rfl,
        fun record a ha => ?_⟩
      · first | exact hl | trivial
      · first | exact hl | trivial
      · simp [residualMatches, ne_matches_iff hpath ha]
      · simp [ne_matches_iff hpath ha]

/-- **Every plan covers its filter.** -/
theorem planRange_covers (h : planRange ctx defs filter = some plan) :
    ∃ d ∈ defs, ∃ r, plan.Covers ctx d r filter := by
  rw [planRange, Option.or_eq_some_iff] at h
  rcases h with h | ⟨-, h⟩
  · obtain ⟨d, hd, r, hcovers, -⟩ := tryPlanSortedIndexScan_covers h
    exact ⟨d, hd, r, hcovers⟩
  unfold tryPlanAndRangeIndexScan at h
  split at h
  case h_2 => simp at h
  case h_1 filters =>
    obtain ⟨⟨f, i⟩, hmem, hplan⟩ := exists_of_findSome?_eq_some h
    obtain ⟨inner, hinner, rfl⟩ := Option.map_eq_some_iff.1 hplan
    obtain ⟨d, hd, r, hcovers, hrange, -, hresidual⟩ := tryPlanSortedIndexScan_covers hinner
    refine ⟨d, hd, r, { hcovers with conjuncts := ?_, residual := ?_ }⟩
    · intro record
      have hsplit : (∀ g ∈ filters, g.matches ctx record = true) ↔ f.matches ctx record = true ∧
          ∀ g ∈ (filters.zipIdx.filter fun q => decide (q.2 ≠ i)).map Prod.fst,
            g.matches ctx record = true := by
        constructor
        · intro hall
          refine ⟨hall f (fst_mem_of_mem_zipIdx hmem), fun g hg => ?_⟩
          obtain ⟨q, hq, rfl⟩ := mem_map.1 hg
          exact hall _ (fst_mem_of_mem_zipIdx (mem_filter.1 hq).1)
        rintro ⟨hf, hothers⟩ g hg
        obtain ⟨j, hj, rfl⟩ := getElem_of_mem hg
        have hjmem : (filters[j], j) ∈ filters.zipIdx :=
          mk_mem_zipIdx_iff_getElem?.2 (by simp [hj])
        by_cases hji : j = i
        · subst hji
          have hsame := mk_mem_zipIdx_iff_getElem?.1 hmem
          rw [getElem?_eq_getElem hj] at hsame
          rwa [Option.some.inj hsame]
        · exact hothers _ (mem_map.2 ⟨_, mem_filter.2 ⟨hjmem, by simpa using hji⟩, rfl⟩)
      rw [Filter.matches_and, hrange, hsplit]
    · intro record a ha
      rw [residualMatches_conjoin, forall_mem_append, hresidual record a ha]

theorem RangePlan.Covers.keeps_iff (h : plan.Covers ctx d r filter) (row : Row) :
    ((d.value row).any (inBounds r.lo r.hi) = true ∧
      residualMatches ctx plan.residual row.2 = true) ↔
      (∃ a, scalarAt row.2 d.path = some a ∧ r.inIndex a = true) ∧
        ∀ f ∈ plan.others, f.matches ctx row.2 = true := by
  have hstrict : ∀ a : ScalarRef, r.inIndex a = true ↔ a.toValue.isNaN = false ∧
      inBounds r.lo r.hi a = true ∧
        (r.strict = true → ∀ l ∈ r.lo.toList ++ r.hi.toList, ¬ SameClass a.toValue l.toValue) := by
    intro a
    simp only [RangeLeaf.inIndex, Bool.and_eq_true, Bool.or_eq_true, Bool.not_eq_true',
      all_eq_true, decide_eq_false_iff_not, and_assoc]
    cases r.strict <;> simp only [reduceCtorEq, false_or, true_or, false_implies, forall_const]
  constructor
  · rintro ⟨hvalue, hres⟩
    cases hv : d.value row with
    | none => simp [hv] at hvalue
    | some a =>
      rw [hv] at hvalue
      obtain ⟨ha, hnan⟩ := SortedDef.value_eq_some.1 hv
      obtain ⟨hothers, hne⟩ := (h.residual row.2 a ha).1 hres
      exact ⟨⟨a, ha, (hstrict a).2 ⟨hnan, hvalue, hne⟩⟩, hothers⟩
  · rintro ⟨⟨a, ha, hin⟩, hothers⟩
    obtain ⟨hnan, hbounds, hne⟩ := (hstrict a).1 hin
    refine ⟨?_, (h.residual row.2 a ha).2 ⟨hothers, hne⟩⟩
    rw [SortedDef.value_eq_some.2 ⟨ha, hnan⟩]
    exact hbounds

/-- **The rows of a plan** are in the order of the table: those whose value is in the range
for the index and that match the other conjuncts. -/
theorem readSortedIndexScan_spec {table : Table} (indexes : SortedIndexes table)
    (hd : d ∈ indexes.defs) (hcovers : plan.Covers ctx d r filter) :
    ∃ p : Row → Bool, readSortedIndexScan ctx indexes.keys table plan = table.rows.filter p ∧
      ∀ row, p row = true ↔ (∃ a, scalarAt row.2 d.path = some a ∧ r.inIndex a = true) ∧
        ∀ f ∈ plan.others, f.matches ctx row.2 = true := by
  refine ⟨fun row => (d.value row).any (inBounds r.lo r.hi) &&
    residualMatches ctx plan.residual row.2, ?_, fun row => ?_⟩
  · rw [readSortedIndexScan, hcovers.name, lookupRange_eq indexes hd hcovers.lower hcovers.upper]
    refine (table.fetch_if (fun row hrow => mem_of_mem_filter hrow)
      (residualMatches ctx plan.residual)).trans ?_
    rw [filter_filter]
    exact filter_congr fun row _ => Bool.and_comm _ _
  · rw [Bool.and_eq_true]
    exact hcovers.keeps_iff row

/-- **When a range plan returns what a scan returns**: the order of the index and the
comparison of the filter agree on the field of every row that matches the other conjuncts. -/
theorem readSortedIndexScan_perm_iff {table : Table} (indexes : SortedIndexes table)
    {filter : Filter} {plan : RangePlan} {r : RangeLeaf} {path : List Nat}
    (hplan : planRange ctx indexes.defs filter = some plan) (hrange : rangeLeaf plan.range = some r)
    (hpath : internFieldPath ctx r.field = some path) :
    (readSortedIndexScan ctx indexes.keys table plan).Perm (readScan ctx table filter) ↔
      ∀ row ∈ table.rows, (∀ f ∈ plan.others, f.matches ctx row.2 = true) →
        ∀ v, descendPath row.2 path = some v → r.Agrees ctx.lib v := by
  obtain ⟨d, hd, r', hcovers⟩ := planRange_covers hplan
  obtain rfl := Option.some.inj (hrange.symm.trans hcovers.leaf)
  obtain rfl := Option.some.inj (hpath.symm.trans hcovers.path)
  obtain ⟨p, heq, hp⟩ := readSortedIndexScan_spec indexes hd hcovers
  rw [heq, readScan]
  rw [perm_ext_iff_of_nodup (table.nodup.filter _) (table.nodup.filter _)]
  simp only [mem_filter]
  have hleaf := rangeLeaf_matches_iff hcovers.leaf hcovers.path
  -- the two tests of a row that matches the other conjuncts
  have hagrees : ∀ row : Row, ((∃ a, scalarAt row.2 d.path = some a ∧ r.inIndex a = true) ↔
      plan.range.matches ctx row.2 = true) ↔
      ∀ v, descendPath row.2 d.path = some v → r.Agrees ctx.lib v := by
    intro row
    rw [hleaf]
    cases hv : descendPath row.2 d.path with
    | none => simp [scalarAt, hv]
    | some v =>
      simp only [scalarAt, hv, Option.bind_some, Option.some.injEq, exists_eq_left', forall_eq',
        RangeLeaf.Agrees]
      cases hs : v.toScalar with
      | none => simp
      | some a =>
        simp only [Option.some.injEq, exists_eq_left']
        exact Bool.eq_iff_iff.symm
  constructor
  · intro hsame row hrow hothers
    rw [← hagrees]
    have hthis := hsame row
    rw [hp, hcovers.conjuncts] at hthis
    constructor
    · exact fun hin => (hthis.1 ⟨hrow, hin, hothers⟩).2.1
    · exact fun hmatch => (hthis.2 ⟨hrow, hmatch, hothers⟩).2.1
  · intro hall row
    refine and_congr_right fun hrow => ?_
    rw [hp, hcovers.conjuncts]
    exact and_congr_left fun hothers => (hagrees row).2 (hall row hrow hothers)

/-! ## Tables of one and of two rows -/

def secondId : RecordId := ⟨List.replicate 15 0 ++ [1], rfl⟩

/-- A table of two rows with one field. -/
def twoRows (v w : Value) : Table where
  rows := [(firstId, .map [(1, v)]), (secondId, .map [(1, w)])]
  ascending := by
    rw [List.pairwise_pair]
    show firstId.bytes < secondId.bytes
    decide

/-- A sorted index whose postings are in the order of the rows. -/
def SortedIndexes.ofTable (table : Table) (d : SortedDef)
    (h : (table.rows.filterMap d.posting).Pairwise (· < ·)) : SortedIndexes table where
  defs := [d]
  keys := table.rows.filterMap d.posting
  named := by simp
  ascending := h
  exact_postings := by
    intro key _
    simp [List.mem_filterMap]

/-- The sorted index on the one field of a table of one row. -/
def oneSorted (v : Value) (key : Bytes)
    (h : (⟨7, [1], true⟩ : SortedDef).posting (firstId, .map [(1, v)]) = some key) :
    SortedIndexes ⟨[(firstId, .map [(1, v)])], pairwise_singleton _ _⟩ :=
  .ofRow ⟨7, [1], true⟩ key h

/-- Integers under an integer bound. -/
theorem readSortedIndexScan_perm_int :
    ∃ plan, planRange oneField (oneSorted (.int 7) _ rfl).defs
        (.compare .gt ["n"] (.lit (.int 5))) = some plan ∧
      (readSortedIndexScan oneField (oneSorted (.int 7) _ rfl).keys
        ⟨[(firstId, .map [(1, .int 7)])], pairwise_singleton _ _⟩ plan).Perm
      (readScan oneField ⟨[(firstId, .map [(1, .int 7)])], pairwise_singleton _ _⟩
        (.compare .gt ["n"] (.lit (.int 5)))) := by
  refine ⟨_, rfl, (readSortedIndexScan_perm_iff (oneSorted (.int 7) _ rfl) rfl rfl rfl).2 ?_⟩
  intro row hrow _ v hv
  rw [mem_singleton.1 hrow] at hv
  obtain rfl := Option.some.inj hv
  decide +kernel

/-- **A float below an integer bound is returned**: `1.0` and a filter `n ≥ 5`. -/
theorem readSortedIndexScan_float_ne :
    ∃ plan, planRange oneField (oneSorted (.f64 ⟨0x3FF0000000000000⟩) _ rfl).defs
        (.compare .gte ["n"] (.lit (.int 5))) = some plan ∧
      ¬ (readSortedIndexScan oneField (oneSorted (.f64 ⟨0x3FF0000000000000⟩) _ rfl).keys
        ⟨[(firstId, .map [(1, .f64 ⟨0x3FF0000000000000⟩)])], pairwise_singleton _ _⟩ plan).Perm
      (readScan oneField ⟨[(firstId, .map [(1, .f64 ⟨0x3FF0000000000000⟩)])],
        pairwise_singleton _ _⟩ (.compare .gte ["n"] (.lit (.int 5)))) := by
  refine ⟨_, rfl, fun h => ?_⟩
  exact absurd h.length_eq (by decide +kernel)

end ShamirDb.Query
