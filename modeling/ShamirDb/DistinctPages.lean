/-
# Distinct rows and pages

A query with `DISTINCT` and a page of its result, through the three plans: the full scan, the
hash index (`read_index_scan`) and the sorted index (`read_sorted_index_scan`).  Rows are
projected, first occurrences are kept (`apply_distinct_qv`), and the page is cut
(`apply_pagination`).

The sorted-index plan leaves the second step out.  The hash plan visits the rows lookup by
lookup, so with a list of values the first occurrences come in another order than in a scan.
-/
import ShamirDb.KeepFirst
import ShamirDb.AggregateShortcuts

namespace ShamirDb.Query

open Option

/-! ## Equal rows -/

mutual

/-- `contains_nan_leaf`. -/
def containsNanLeaf : Value → Bool
  | .f64 f => f.isNaN
  | .list items => containsNanItems items
  | .set items => containsNanItems items
  | .map entries => containsNanEntries entries
  | _ => false

def containsNanItems : List Value → Bool
  | [] => false
  | v :: vs => containsNanLeaf v || containsNanItems vs

def containsNanEntries : List (Nat × Value) → Bool
  | [] => false
  | e :: es => containsNanLeaf e.2 || containsNanEntries es

end

/-- A binary and a list of its bytes as integers. -/
def binEqItems (bytes : Bytes) (items : List Value) : Bool :=
  decide (bytes.length = items.length) && (bytes.zip items).all fun p =>
      match p.2 with
      | .int i => decide (i.toInt = p.1.toNat)
      | _ => false

mutual

/-- `canonical_eq`; numbers are compared by their class. -/
def canonicalEq : Value → Value → Bool
  | .null, .null => true
  | .bool x, .bool y => x == y
  | .str x, .str y => decide (x = y)
  | .bin x, .bin y => decide (x = y)
  | .bin x, .list items => binEqItems x.bytes items
  | .list items, .bin x => binEqItems x.bytes items
  | .list xs, .list ys => canonicalEqItems xs ys
  | .set xs, .set ys => canonicalEqItems xs ys
  | .list xs, .set ys => canonicalEqItems xs ys
  | .set xs, .list ys => canonicalEqItems xs ys
  | .map xs, .map ys => canonicalEqEntries xs ys
  | a, b =>
    match numericClass a, numericClass b with
    | some x, some y => decide (x = y)
    | _, _ => false

def canonicalEqItems : List Value → List Value → Bool
  | [], [] => true
  | x :: xs, y :: ys => canonicalEq x y && canonicalEqItems xs ys
  | _, _ => false

def canonicalEqEntries : List (Nat × Value) → List (Nat × Value) → Bool
  | [], [] => true
  | x :: xs, y :: ys => decide (x.1 = y.1) && canonicalEq x.2 y.2 && canonicalEqEntries xs ys
  | _, _ => false

end

/-- The equality of `apply_distinct_qv`: a NaN leaf gets an id of its own
(`assign_nan_ids`), so a row with one equals no other. -/
def distinctEq (a b : Value) : Bool :=
  !containsNanLeaf a && !containsNanLeaf b && canonicalEq a b

/-- `apply_distinct_qv`. -/
def applyDistinct (records : List Value) : List Value := KeepFirst.keepFirst distinctEq records

/-- `apply_pagination`, with the offset and the limit of `Pagination::resolve`. -/
def applyPagination (skip : Nat) (take : Option Nat) (records : List Value) : List Value :=
  match take with
  | some limit => (records.drop skip).take limit
  | none => records.drop skip

/-! ## Plans -/

/-- The plan of a query. -/
inductive Plan where
  | fullScan
  | hashIndex (plan : IndexPlan)
  | sortedIndex (plan : RangePlan)

variable (ctx : FilterContext) {digest : Digest} {table : Table} {rows : List Row}

/-- The plans a planner returns for a filter. -/
def Plan.Possible (hash : HashIndexes digest table) (sorted : SortedIndexes table)
    (filter : Filter) : Plan → Prop
  | .fullScan => True
  | .hashIndex plan => tryPlanIndexScan ctx hash.defs filter = some plan
  | .sortedIndex plan => planRange ctx sorted.defs filter = some plan

/-- A query with `DISTINCT` and without order: rows, projection, first occurrences, page. -/
def readDistinct (hash : HashIndexes digest table) (sorted : SortedIndexes table)
    (project : Row → Value) (filter : Filter) (skip : Nat) (take : Option Nat) :
    Plan → List Value
  | .fullScan => applyPagination skip take (applyDistinct ((readScan ctx table filter).map project))
  | .hashIndex plan => applyPagination skip take
      (applyDistinct ((readIndexScan ctx digest hash.store table plan).map project))
  | .sortedIndex plan =>
    applyPagination skip take ((readSortedIndexScan ctx sorted.keys table plan).map project)

/-! ## The rows of the plans -/

/-- Whether a row is in the classes of a lookup. -/
def inLookup (paths : List (List Nat)) (set : List ScalarRef) (row : Row) : Bool :=
  decide (List.Forall₂ (HoldsClass row.2) paths set)

/-- The rows of a hash plan in the order they are visited: lookup by lookup, each row when it
is first found. -/
def visitedRows (paths : List (List Nat)) (rows : List Row) : List (List ScalarRef) → List Row
  | [] => []
  | set :: sets => rows.filter (inLookup paths set) ++
      (visitedRows paths rows sets).filter fun row => !inLookup paths set row

/-- The rows of a range plan: those whose field is in the range for the index and that match
the other conjuncts. -/
def rangeRows (table : Table) (plan : RangePlan) (r : RangeLeaf) (path : List Nat) : List Row :=
  table.rows.filter fun row => (scalarAt row.2 path).any r.inIndex &&
    plan.others.all fun f => f.matches ctx row.2

/-- New ids are appended. -/
theorem extendIds_eq {ids more : List RecordId} (h : more.Nodup) :
    extendIds ids more = ids ++ more.filter fun id => decide (id ∉ ids) := by
  unfold extendIds
  induction more generalizing ids with
  | nil => simp
  | cons x more ih =>
    obtain ⟨hx, hmore⟩ := List.nodup_cons.1 h
    rw [List.foldl_cons, ih hmore, List.filter_cons]
    by_cases hin : x ∈ ids
    · simp [hin]
    · simp only [hin, if_false, List.append_assoc, List.singleton_append]
      congr 2
      refine List.filter_congr fun id hid => ?_
      have hne : id ≠ x := fun heq => hx (heq ▸ hid)
      simp [hne]

theorem mem_visitedRows {paths : List (List Nat)} {sets : List (List ScalarRef)} {row : Row}
    (h : row ∈ visitedRows paths rows sets) : row ∈ rows := by
  induction sets with
  | nil => simp [visitedRows] at h
  | cons set sets ih =>
    rw [visitedRows, List.mem_append] at h
    rcases h with h | h
    · exact (List.mem_filter.1 h).1
    · exact ih (List.mem_filter.1 h).1

/-- The ids of all lookups are those of the visited rows. -/
theorem foldl_extendIds (table : Table) (paths : List (List Nat)) (sets : List (List ScalarRef))
    (ids : List RecordId) :
    sets.foldl (fun ids set =>
      extendIds ids ((table.rows.filter (inLookup paths set)).map Prod.fst)) ids =
      ids ++ ((visitedRows paths table.rows sets).map Prod.fst).filter
        fun id => decide (id ∉ ids) := by
  induction sets generalizing ids with
  | nil => simp [visitedRows]
  | cons set sets ih =>
    have hnodup : ((table.rows.filter (inLookup paths set)).map Prod.fst).Nodup :=
      table.nodup_ids.sublist (List.Sublist.map _ List.filter_sublist)
    have hfound : ∀ row ∈ table.rows,
        (row.1 ∈ (table.rows.filter (inLookup paths set)).map Prod.fst ↔
          inLookup paths set row = true) := by
      intro row hrow
      rw [List.mem_map]
      constructor
      · rintro ⟨row', hrow', heq⟩
        rw [List.mem_filter] at hrow'
        rw [← table.unique hrow'.1 hrow heq]
        exact hrow'.2
      · exact fun h => ⟨row, List.mem_filter.2 ⟨hrow, h⟩, rfl⟩
    rw [List.foldl_cons, ih, visitedRows, List.map_append, List.filter_append]
    generalize (table.rows.filter (inLookup paths set)).map Prod.fst = found at hnodup hfound
    rw [extendIds_eq hnodup, List.append_assoc]
    congr 2
    rw [List.filter_map, List.filter_map, List.filter_filter]
    congr 1
    refine List.filter_congr fun row hrow => ?_
    have hin := hfound row (mem_visitedRows hrow)
    simp only [Function.comp_apply, List.mem_append, List.mem_filter, hin]
    by_cases hids : row.1 ∈ ids <;> cases inLookup paths set row <;> simp [hids]

variable {ctx} {filter : Filter} {plan : RangePlan}

/-- **The rows of a hash plan**, in the order they are visited. -/
theorem readIndexScan_eq (indexes : HashIndexes digest table) {d : IndexDef}
    (hd : d ∈ indexes.defs) {plan : IndexPlan} (hname : plan.name = d.name)
    (hlen : ∀ set ∈ plan.lookupSets, d.paths.length = set.length) :
    readIndexScan ctx digest indexes.store table plan =
      (visitedRows d.paths table.rows plan.lookupSets).filter
        fun row => residualMatches ctx plan.residual row.2 := by
  have hlookup : ∀ set ∈ plan.lookupSets, lookupByIndex digest indexes.store plan.name
      (set.map ScalarRef.toValue) = (table.rows.filter (inLookup d.paths set)).map Prod.fst := by
    intro set hset
    rw [hname, lookupByIndex_eq digest indexes hd]
    congr 1
    refine List.filter_congr fun row _ => ?_
    rw [Bool.eq_iff_iff, sameCode_lits_iff (hlen set hset), inLookup, decide_eq_true_eq]
  have hids : plan.recordIds digest indexes.store =
      (visitedRows d.paths table.rows plan.lookupSets).map Prod.fst := by
    have hfold := foldl_extendIds table d.paths plan.lookupSets []
    simp only [List.not_mem_nil, not_false_eq_true, decide_true, List.filter_true,
      List.nil_append] at hfold
    rw [← hfold]
    refine List.foldl_ext _ _ _ fun ids set hset => ?_
    rw [hlookup set hset]
  rw [readIndexScan, hids]
  exact table.fetch_if (fun row hrow => mem_visitedRows hrow) (residualMatches ctx plan.residual)

/-- **The rows of a range plan.** -/
theorem readSortedIndexScan_eq (indexes : SortedIndexes table) {r : RangeLeaf} {path : List Nat}
    (hplan : planRange ctx indexes.defs filter = some plan) (hrange : rangeLeaf plan.range = some r)
    (hpath : internFieldPath ctx r.field = some path) :
    readSortedIndexScan ctx indexes.keys table plan = rangeRows ctx table plan r path := by
  obtain ⟨d, hd, r', hcovers⟩ := planRange_covers hplan
  obtain rfl := some.inj (hrange.symm.trans hcovers.leaf)
  obtain rfl := some.inj (hpath.symm.trans hcovers.path)
  obtain ⟨p, heq, hp⟩ := readSortedIndexScan_spec indexes hd hcovers
  rw [heq]
  refine List.filter_congr fun row _ => ?_
  rw [Bool.eq_iff_iff, hp, Bool.and_eq_true, List.all_eq_true, any_eq_true]

/-! ## Pages -/

/-- Lists are equal when all their pages are. -/
theorem forall_applyPagination_iff {xs ys : List Value} :
    (∀ skip take, applyPagination skip take xs = applyPagination skip take ys) ↔ xs = ys := by
  constructor
  · exact fun h => h 0 none
  · rintro rfl skip take
    rfl

theorem applyPagination_sublist (skip : Nat) (take : Option Nat) (xs : List Value) :
    (applyPagination skip take xs).Sublist xs := by
  cases take with
  | none => exact List.drop_sublist _ _
  | some limit => exact (List.take_sublist _ _).trans (List.drop_sublist _ _)

/-- No two rows are equal. -/
def NoTwoEqual (records : List Value) : Prop :=
  records.Pairwise fun a b => distinctEq a b = false

variable (ctx) in
/-- When a plan is right: a full scan is; a hash plan if the first occurrences of the rows in
the order of the lookups are those of the matching rows; a range plan if no two rows of the
range are equal and they are the first occurrences of the matching rows. -/
def Plan.Agrees (hash : HashIndexes digest table) (project : Row → Value) (filter : Filter) :
    Plan → Prop
  | .fullScan => True
  | .hashIndex plan => ∀ d ∈ hash.defs, d.name = plan.name →
      applyDistinct (((visitedRows d.paths table.rows plan.lookupSets).filter
        fun row => residualMatches ctx plan.residual row.2).map project) =
        applyDistinct ((readScan ctx table filter).map project)
  | .sortedIndex plan => ∀ r path, rangeLeaf plan.range = some r →
      internFieldPath ctx r.field = some path →
        NoTwoEqual ((rangeRows ctx table plan r path).map project) ∧
          (rangeRows ctx table plan r path).map project =
            applyDistinct ((readScan ctx table filter).map project)

/-- **When a plan returns the pages of the distinct rows**, and so no two equal rows. -/
theorem readDistinct_pages_iff (hash : HashIndexes digest table) (sorted : SortedIndexes table)
    (project : Row → Value) {filter : Filter} {plan : Plan}
    (hplan : plan.Possible ctx hash sorted filter) :
    (∀ skip take, readDistinct ctx hash sorted project filter skip take plan =
        applyPagination skip take (applyDistinct ((readScan ctx table filter).map project)) ∧
      NoTwoEqual (readDistinct ctx hash sorted project filter skip take plan)) ↔
      plan.Agrees ctx hash project filter := by
  have hdistinct : ∀ skip take, NoTwoEqual (applyPagination skip take
      (applyDistinct ((readScan ctx table filter).map project))) := fun skip take =>
    (KeepFirst.pairwise_keepFirst _).sublist (applyPagination_sublist skip take _)
  -- a page that is a page of the distinct rows has no two equal ones
  have hpages : (∀ skip take, readDistinct ctx hash sorted project filter skip take plan =
        applyPagination skip take (applyDistinct ((readScan ctx table filter).map project)) ∧
      NoTwoEqual (readDistinct ctx hash sorted project filter skip take plan)) ↔
      ∀ skip take, readDistinct ctx hash sorted project filter skip take plan =
        applyPagination skip take (applyDistinct ((readScan ctx table filter).map project)) := by
    constructor
    · exact fun h skip take => (h skip take).1
    · intro h skip take
      refine ⟨h skip take, ?_⟩
      rw [h skip take]
      exact hdistinct skip take
  rw [hpages]
  cases plan with
  | fullScan => exact ⟨fun _ => trivial, fun _ _ _ => rfl⟩
  | hashIndex plan =>
    obtain ⟨d, hd, hcovers, hlen⟩ := tryPlanIndexScan_spec hplan
    have hname := hcovers.name
    simp only [readDistinct, readIndexScan_eq hash hd hname hlen]
    rw [forall_applyPagination_iff]
    constructor
    · intro h d' hd' hname'
      rw [List.inj_on_of_nodup_map hash.named hd' hd (hname'.trans hname)]
      exact h
    · exact fun h => h d hd hname.symm
  | sortedIndex plan =>
    obtain ⟨d, hd, r, hcovers⟩ := planRange_covers hplan
    simp only [readDistinct, readSortedIndexScan_eq sorted hplan hcovers.leaf hcovers.path]
    rw [forall_applyPagination_iff]
    constructor
    · intro h r' path' hr' hpath'
      obtain rfl := some.inj (hcovers.leaf.symm.trans hr')
      obtain rfl := some.inj (hcovers.path.symm.trans hpath')
      refine ⟨?_, h⟩
      rw [h]
      exact KeepFirst.pairwise_keepFirst _
    · exact fun h => (h r d.path hcovers.leaf hcovers.path).2

/-- Two selections with the same elements are equal. -/
theorem filter_eq_of_perm {α : Type} {p q : α → Bool} {xs : List α}
    (h : (xs.filter p).Perm (xs.filter q)) : xs.filter p = xs.filter q := by
  refine List.filter_congr fun x hx => ?_
  have hmem := h.mem_iff (a := x)
  rwa [List.mem_filter, List.mem_filter, and_iff_right hx, and_iff_right hx,
    ← Bool.eq_iff_iff] at hmem

/-- **A hash plan with one lookup is right** if it returns the rows of the scan: they come in the
order of the scan. -/
theorem Plan.agrees_of_one_lookup (hash : HashIndexes digest table) {plan : IndexPlan}
    {set : List ScalarRef} (hplan : tryPlanIndexScan ctx hash.defs filter = some plan)
    (hone : plan.lookupSets = [set])
    (hrows : (readIndexScan ctx digest hash.store table plan).Perm (readScan ctx table filter))
    (project : Row → Value) : (Plan.hashIndex plan).Agrees ctx hash project filter := by
  intro d hd hname
  obtain ⟨d', hd', hcovers, hlen⟩ := tryPlanIndexScan_spec hplan
  obtain rfl := List.inj_on_of_nodup_map hash.named hd hd' (hname.trans hcovers.name)
  have hvisited : ((visitedRows d.paths table.rows plan.lookupSets).filter
      fun row => residualMatches ctx plan.residual row.2) = readScan ctx table filter := by
    rw [readIndexScan_eq hash hd hname.symm hlen, hone, visitedRows, visitedRows, List.filter_nil,
      List.append_nil, List.filter_filter] at hrows
    rw [hone, visitedRows, visitedRows, List.filter_nil, List.append_nil, List.filter_filter]
    exact filter_eq_of_perm hrows
  rw [hvisited]

/-- **A range plan that returns the rows of the scan is right** exactly if no two of them are
projected to equal rows. -/
theorem Plan.agrees_range_iff (hash : HashIndexes digest table) (sorted : SortedIndexes table)
    (hplan : planRange ctx sorted.defs filter = some plan)
    (hrows : (readSortedIndexScan ctx sorted.keys table plan).Perm (readScan ctx table filter))
    (project : Row → Value) : (Plan.sortedIndex plan).Agrees ctx hash project filter ↔
      NoTwoEqual ((readScan ctx table filter).map project) := by
  obtain ⟨d, hd, r, hcovers⟩ := planRange_covers hplan
  have hsame : rangeRows ctx table plan r d.path = readScan ctx table filter := by
    rw [readSortedIndexScan_eq sorted hplan hcovers.leaf hcovers.path] at hrows
    exact filter_eq_of_perm hrows
  constructor
  · intro h
    rw [← hsame]
    exact (h r d.path hcovers.leaf hcovers.path).1
  · intro hdistinct r' path' hr' hpath'
    obtain rfl := some.inj (hcovers.leaf.symm.trans hr')
    obtain rfl := some.inj (hcovers.path.symm.trans hpath')
    rw [hsame]
    exact ⟨hdistinct, (KeepFirst.keepFirst_eq_self hdistinct).symm⟩

/-! ## A table of two rows -/

/-- No hash indexes. -/
def noHash (table : Table) : HashIndexes zeroDigest table where
  defs := []
  store := []
  named := List.nodup_nil
  ascending := List.Pairwise.nil
  exact_postings := by
    intro entry _
    simp

/-- The field of a row. -/
def selectField (row : Row) : Value := (descendPath row.2 [1]).getD .null

/-- Two different values of a range. -/
theorem readDistinct_page_ints :
    readDistinct oneField (noHash (twoRows (.int 5) (.int 7)))
        (.ofTable (twoRows (.int 5) (.int 7)) ⟨7, [1], true⟩ (by decide +kernel)) selectField
        (.compare .gte ["n"] (.lit (.int 5))) 0 none
        (.sortedIndex ⟨7, some (encodeI64 5), none, none, .compare .gte ["n"] (.lit (.int 5)), []⟩) =
      applyPagination 0 none (applyDistinct ((readScan oneField (twoRows (.int 5) (.int 7))
        (.compare .gte ["n"] (.lit (.int 5)))).map selectField)) := by
  have hplan : Plan.Possible oneField (noHash (twoRows (.int 5) (.int 7)))
      (.ofTable (twoRows (.int 5) (.int 7)) ⟨7, [1], true⟩ (by decide +kernel))
      (.compare .gte ["n"] (.lit (.int 5)))
      (.sortedIndex ⟨7, some (encodeI64 5), none, none, .compare .gte ["n"] (.lit (.int 5)), []⟩) :=
    rfl
  refine ((readDistinct_pages_iff _ _ selectField hplan).2
    ((Plan.agrees_range_iff _ _ hplan (.of_eq ?_) selectField).2 ?_) 0 none).1
  · rfl
  · refine List.pairwise_map.2 (List.Pairwise.filter _ (List.pairwise_pair.2 ?_))
    decide +kernel

/-- **A range plan returns equal rows**: two rows with `5` and a filter `n ≥ 5`. -/
theorem readDistinct_repeats :
    ∃ plan, planRange oneField [⟨7, [1], true⟩] (.compare .gte ["n"] (.lit (.int 5))) = some plan ∧
      readDistinct oneField (noHash (twoRows (.int 5) (.int 5)))
          (.ofTable (twoRows (.int 5) (.int 5)) ⟨7, [1], true⟩ (by decide +kernel)) selectField
          (.compare .gte ["n"] (.lit (.int 5))) 0 none (.sortedIndex plan) = [.int 5, .int 5] ∧
      distinctEq (.int 5) (.int 5) = true := by
  exact ⟨_, rfl, rfl, rfl⟩

end ShamirDb.Query
