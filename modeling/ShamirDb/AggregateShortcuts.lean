/-
# Aggregates without a scan

`read_impl` answers four queries of one item without reading the rows: `COUNT(*)` from the
record counter, `COUNT(*)` with a filter a hash index decides from the lengths of its lookups,
and `MIN` and `MAX` from the first and the last posting of a sorted index.  All others go
through the accumulators (`accumulator.rs`, `group_projection.rs`).

The answers agree under conditions.  The lookups of a membership list are added up, so a row
is counted once for each listed value of its class.  The accumulators take the first value and
then only what compares as better, so they stay in the type of the first row, while the index
puts types one after the other.  And without an alias the two paths name the column
differently.

Counts are natural numbers: no table has `2^63` rows.
-/
import ShamirDb.FirstExtreme
import ShamirDb.RangePlans

namespace ShamirDb.Query

open List Option SortedDef

/-! ## Queries -/

/-- `AggFunc::Min` and `AggFunc::Max`. -/
inductive Extreme where
  | min
  | max
deriving DecidableEq

/-- How the current extreme compares with a value that replaces it. -/
def Extreme.wins : Extreme → Ordering
  | .min => .gt
  | .max => .lt

/-- The function in its `Debug` form, and the name a shortcut falls back to. -/
def Extreme.debug : Extreme → String
  | .min => "Min"
  | .max => "Max"

def Extreme.fallback : Extreme → String
  | .min => "min"
  | .max => "max"

/-- The one item of the query. -/
inductive SelectItem where
  | countAll
  | aggregate (func : Extreme) (path : List String)

/-- A query without grouping, order, distinct, count or pagination. -/
structure AggregateQuery where
  item : SelectItem
  aliasName : Option String
  filter : Option Filter

/-- The column of the one record of an answer. -/
inductive AggregateValue where
  | count (n : Nat)
  | value (v : Value)

/-- `str::to_lowercase`, which maps each character to one or more. -/
structure Lowercase where
  toLowercase : String → String
  length_le : ∀ s, s.length ≤ (toLowercase s).length

/-- A table with its indexes and its record counter. -/
structure TableState (digest : Digest) where
  table : Table
  hash : HashIndexes digest table
  sorted : SortedIndexes table
  counter : Nat

/-! ## Accumulators -/

/-- `OwnedScalar::cmp_scalar`. -/
def ScalarRef.cmpScalar : ScalarRef → ScalarRef → Option Ordering
  | .null, .null => some .eq
  | .bool b, .bool a => some (cmpBool b a)
  | .int b, .int a => some (compare b.toInt a.toInt)
  | .int b, .f64 a => cmpI64F64 b a
  | .f64 b, .int a => (cmpI64F64 a b).map Ordering.swap
  | .f64 b, .f64 a => b.partialCmp a
  | .str b, .str a => some (b.cmp a)
  | _, _ => none

/-- The running extreme and a value: both scalars, or both materialised. -/
def cmpLeaf (lib : NumericLib) (current v : Value) : Option Ordering :=
  match current.toScalar, v.toScalar with
  | some a, some b => a.cmpScalar b
  | none, none => compareValues lib current v
  | _, _ => none

/-- `AggAccum::step` for `Min` and `Max`, on a field that is present. -/
def Extreme.step (lib : NumericLib) (e : Extreme) (current : Option Value) (v : Value) :
    Option Value :=
  match current with
  | none => some v
  | some cur => if cmpLeaf lib cur v = some e.wins then some v else some cur

/-- The steps and `finish`. -/
def Extreme.accumulate (lib : NumericLib) (e : Extreme) (leaves : List Value) : Value :=
  (leaves.foldl (e.step lib) none).getD .null

/-- `join(".")`. -/
def joinDots : List String → String
  | [] => ""
  | [s] => s
  | s :: rest => s ++ "." ++ joinDots rest

variable (ctx : FilterContext) (lower : Lowercase)

/-- The values of a field, in the order of the rows; a name that is not interned is in none. -/
def leavesAt (rows : List Row) (path : List String) : List Value :=
  match internFieldPath ctx path with
  | some p => rows.filterMap fun row => descendPath row.2 p
  | none => []

/-- The scan and `build_aggregate_object`. -/
def aggregateScan (table : Table) (q : AggregateQuery) : String × AggregateValue :=
  let rows := match q.filter with
    | none => table.rows
    | some f => readScan ctx table f
  match q.item with
  | .countAll => (q.aliasName.getD "count", .count rows.length)
  | .aggregate e path =>
    (q.aliasName.getD (lower.toLowercase (e.debug ++ "_" ++ joinDots path)),
      .value (e.accumulate ctx.lib (leavesAt ctx rows path)))

/-! ## Shortcuts -/

/-- The keys of one index. -/
def indexKeys (keys : List Bytes) (name : UInt64) : List Bytes :=
  keys.filter fun k => decide ((rangeBounds name none none).1 ≤ k) &&
    decide (k ≤ (rangeBounds name none none).2)

/-- `lookup_min` and `lookup_max`. -/
def lookupExtreme (keys : List Bytes) (e : Extreme) (name : UInt64) : Option RecordId :=
  (match e with
    | .min => (indexKeys keys name).head?
    | .max => (indexKeys keys name).getLast?).bind decodeRecordIdSuffix

/-- The answer of the first or the last posting of an index. -/
def extremeShortcut (table : Table) (keys : List Bytes) (defs : List SortedDef) (e : Extreme)
    (path : List String) : Option Value :=
  (internFieldPath ctx path).bind fun fieldPath =>
    (findByFieldReady defs fieldPath).bind fun d =>
      (lookupExtreme keys e d.name).bind fun id =>
        (table.get id).map fun record => (descendPath record fieldPath).getD .null

variable {digest : Digest} {path : List String}

/-- The shortcuts of `read_impl`; `none` if the rows are scanned. -/
def aggregateShortcut (st : TableState digest) (q : AggregateQuery) :
    Option (String × AggregateValue) :=
  match q.item, q.filter with
  | .countAll, none => some (q.aliasName.getD "count", .count st.counter)
  | .countAll, some f =>
    match tryPlanIndexScan ctx st.hash.defs f with
    | some plan =>
      if plan.residual.isNone then
        some (q.aliasName.getD "count", .count ((plan.lookupSets.map fun values =>
          (lookupByIndex digest st.hash.store plan.name
            (values.map ScalarRef.toValue)).length).sum))
      else none
    | none => none
  | .aggregate e path, none =>
    (extremeShortcut ctx st.table st.sorted.keys st.sorted.defs e path).map fun v =>
      (q.aliasName.getD (path.getLast?.getD e.fallback), .value v)
  | .aggregate _ _, some _ => none

/-! ## Output names -/

theorem length_le_joinDots {s : String} (h : path.getLast? = some s) :
    s.length ≤ (joinDots path).length := by
  induction path with
  | nil => simp at h
  | cons a rest ih =>
    cases rest with
    | nil =>
      obtain rfl := some.inj h
      exact le_rfl
    | cons b rest =>
      have hrest := ih (by rwa [getLast?_cons_cons] at h)
      rw [joinDots, String.length_append]
      · omega
      · simp

/-- Without an alias the scan and the shortcut name the column differently. -/
theorem scan_name_ne (e : Extreme) (path : List String) :
    path.getLast?.getD e.fallback ≠ lower.toLowercase (e.debug ++ "_" ++ joinDots path) := by
  intro heq
  have hlower := lower.length_le (e.debug ++ "_" ++ joinDots path)
  rw [← heq, String.length_append, String.length_append] at hlower
  have hdebug : e.debug.length = 3 := by cases e <;> rfl
  have hunder : ("_" : String).length = 1 := rfl
  cases hlast : path.getLast? with
  | none =>
    have hfallback : e.fallback.length = 3 := by cases e <;> rfl
    rw [hlast, getD_none] at hlower
    omega
  | some s =>
    have := length_le_joinDots hlast
    rw [hlast, getD_some] at hlower
    omega

/-! ## Counts -/

/-- The lookups of a plan that find a record: those whose values are, field by field, in the
classes of the record's. -/
def IndexPlan.hits (plan : IndexPlan) (paths : List (List Nat)) (record : Value) : Nat :=
  plan.lookupSets.countP fun set => decide (List.Forall₂ (HoldsClass record) paths set)

/-- One if the filter matches. -/
def matchCount (f : Filter) (record : Value) : Nat := if f.matches ctx record then 1 else 0

/-- What is counted too much: second lookups that find a matching row, and lookups that find
another one. -/
def extraHits (table : Table) (f : Filter) (plan : IndexPlan) (paths : List (List Nat)) : Nat :=
  (table.rows.map fun row => plan.hits paths row.2 - matchCount ctx f row.2).sum

/-- What is not counted: the matching rows no lookup finds. -/
def missedRows (table : Table) (f : Filter) (plan : IndexPlan) (paths : List (List Nat)) : Nat :=
  (table.rows.map fun row => matchCount ctx f row.2 - plan.hits paths row.2).sum

variable {ctx}

variable {table : Table} {plan : IndexPlan} {d : SortedDef} {α β : Type} {a b : Bytes}
  {f : α → Option β} {xs : List α}

/-- Pairs counted by rows or by columns. -/
theorem sum_countP_comm (p : α → β → Bool) (xs : List α) (ys : List β) :
    (xs.map fun x => ys.countP (p x)).sum = (ys.map fun y => xs.countP (p · y)).sum := by
  induction xs with
  | nil => simp
  | cons x xs ih =>
    have hcount : ys.countP (p x) = (ys.map fun y => if p x y then 1 else 0).sum := by
      clear ih
      induction ys with
      | nil => rfl
      | cons y ys ih => rw [countP_cons, ih, map_cons, sum_cons, Nat.add_comm]
    simp only [map_cons, sum_cons, countP_cons]
    rw [ih, hcount, Nat.add_comm, ← sum_map_add]

/-- The lookups count each record once for every list it is in. -/
theorem sum_lookups_eq (indexes : HashIndexes digest table) {d : IndexDef} (hd : d ∈ indexes.defs)
    (hname : plan.name = d.name) (hlen : ∀ set ∈ plan.lookupSets, d.paths.length = set.length) :
    (plan.lookupSets.map fun values => (lookupByIndex digest indexes.store plan.name
      (values.map ScalarRef.toValue)).length).sum =
      (table.rows.map fun row => plan.hits d.paths row.2).sum := by
  refine Eq.trans ?_ (sum_countP_comm (fun set (row : Row) =>
    decide (List.Forall₂ (HoldsClass row.2) d.paths set)) plan.lookupSets table.rows)
  congr 1
  refine map_congr_left fun set hset => ?_
  rw [hname, lookupByIndex_eq digest indexes hd, length_map, ← countP_eq_length_filter]
  refine countP_congr fun row _ => ?_
  rw [sameCode_lits_iff (hlen set hset), decide_eq_true_eq]

/-- The scan counts the rows that match. -/
theorem length_readScan (table : Table) (f : Filter) :
    (readScan ctx table f).length = (table.rows.map fun row => matchCount ctx f row.2).sum := by
  rw [readScan]
  induction table.rows with
  | nil => rfl
  | cons row rows ih =>
    rw [filter_cons, map_cons, sum_cons, ← ih, matchCount]
    split
    · rw [length_cons, Nat.add_comm]
    · rw [Nat.zero_add]

/-- Two sums are equal exactly if what one has too much is what it lacks. -/
theorem sum_eq_iff {α : Type} (xs : List α) (h m : α → Nat) :
    (xs.map h).sum = (xs.map m).sum ↔
      (xs.map fun x => h x - m x).sum = (xs.map fun x => m x - h x).sum := by
  have hboth : (xs.map h).sum + (xs.map fun x => m x - h x).sum =
      (xs.map m).sum + (xs.map fun x => h x - m x).sum := by
    rw [← sum_map_add, ← sum_map_add]
    congr 1
    refine map_congr_left fun x _ => ?_
    omega
  omega

/-- **The lengths of the lookups are the number of matching rows** exactly if the surplus of
hits makes up for the rows no lookup finds. -/
theorem sum_lookups_eq_length_iff (indexes : HashIndexes digest table) {filter : Filter}
    (hplan : tryPlanIndexScan ctx indexes.defs filter = some plan) :
    (plan.lookupSets.map fun values => (lookupByIndex digest indexes.store plan.name
      (values.map ScalarRef.toValue)).length).sum = (readScan ctx table filter).length ↔
      ∀ d ∈ indexes.defs, d.name = plan.name →
        extraHits ctx table filter plan d.paths = missedRows ctx table filter plan d.paths := by
  obtain ⟨d, hd, hcovers, hlen⟩ := tryPlanIndexScan_spec hplan
  have hname := hcovers.name
  rw [sum_lookups_eq indexes hd hname hlen, length_readScan, sum_eq_iff]
  constructor
  · intro h d' hd' hname'
    rw [inj_on_of_nodup_map indexes.named hd' hd (hname'.trans hname)]
    exact h
  · exact fun h => h d hd hname.symm

/-- Two lookups with the same classes. -/
def SameLookup (a b : List ScalarRef) : Prop :=
  List.Forall₂ (fun x y => SameClass x.toValue y.toValue) a b

/-- Two lookups that find the same record have the same classes. -/
theorem sameLookup_of_holds {record : Value} {paths : List (List Nat)} {a b : List ScalarRef}
    (ha : List.Forall₂ (HoldsClass record) paths a)
    (hb : List.Forall₂ (HoldsClass record) paths b) : SameLookup a b := by
  induction ha generalizing b with
  | nil =>
    cases hb
    exact .nil
  | cons hx _ ih =>
    obtain _ | ⟨hy, hb⟩ := hb
    obtain ⟨v, hv, hvx⟩ := hx
    obtain ⟨w, hw, hwy⟩ := hy
    obtain rfl := some.inj (hv.symm.trans hw)
    exact .cons (hvx.symm.trans hwy) (ih hb)

/-- Of lookups with pairwise different classes one at most finds a record. -/
theorem hits_le_one (hclasses : plan.lookupSets.Pairwise fun a b => ¬ SameLookup a b)
    (paths : List (List Nat)) (record : Value) : plan.hits paths record ≤ 1 := by
  rw [IndexPlan.hits]
  generalize plan.lookupSets = sets at hclasses
  induction sets with
  | nil => exact Nat.zero_le 1
  | cons a sets ih =>
    obtain ⟨hfirst, hrest⟩ := pairwise_cons.1 hclasses
    by_cases ha : List.Forall₂ (HoldsClass record) paths a
    · have hnone : sets.countP (fun set => decide (List.Forall₂ (HoldsClass record) paths set)) =
          0 := by
        refine countP_eq_zero.2 fun b hb hholds => hfirst b hb ?_
        exact sameLookup_of_holds ha (of_decide_eq_true hholds)
      rw [countP_cons, hnone, if_pos (decide_eq_true ha)]
    · rw [countP_cons_of_neg (by simpa using ha)]
      exact ih hrest

/-- If a plan with nothing left to filter returns the rows of the scan, its lookups find the rows
that match. -/
theorem hits_pos_iff (indexes : HashIndexes digest table) {filter : Filter} {d : IndexDef}
    (hd : d ∈ indexes.defs) (hname : plan.name = d.name)
    (hlen : ∀ set ∈ plan.lookupSets, d.paths.length = set.length) (hresidual : plan.residual = none)
    (hrows : (readIndexScan ctx digest indexes.store table plan).Perm (readScan ctx table filter))
    {row : Row} (hrow : row ∈ table.rows) :
    0 < plan.hits d.paths row.2 ↔ filter.matches ctx row.2 = true := by
  obtain ⟨-, hmem⟩ := readIndexScan_spec ctx indexes hd hname
  have hscan := hrows.mem_iff (a := row)
  rw [hmem, readScan, mem_filter, and_iff_right hrow, and_iff_right hrow, hresidual] at hscan
  rw [IndexPlan.hits, countP_pos_iff, ← hscan, residualMatches, and_iff_left rfl]
  refine exists_congr fun set => and_congr_right fun hset => ?_
  rw [sameCode_lits_iff (hlen set hset), decide_eq_true_eq]

/-- **A list of pairwise different classes counts each row once.**  If such a plan returns the rows
of the scan, nothing is counted too much and nothing is missed. -/
theorem hits_exact (indexes : HashIndexes digest table) {filter : Filter}
    (hplan : tryPlanIndexScan ctx indexes.defs filter = some plan) (hresidual : plan.residual = none)
    (hclasses : plan.lookupSets.Pairwise fun a b => ¬ SameLookup a b)
    (hrows : (readIndexScan ctx digest indexes.store table plan).Perm (readScan ctx table filter))
    {d : IndexDef} (hd : d ∈ indexes.defs) (hname : d.name = plan.name) :
    extraHits ctx table filter plan d.paths = 0 ∧ missedRows ctx table filter plan d.paths = 0 := by
  obtain ⟨d', hd', hcovers, hlen⟩ := tryPlanIndexScan_spec hplan
  obtain rfl := inj_on_of_nodup_map indexes.named hd hd' (hname.trans hcovers.name)
  have hsame : ∀ row ∈ table.rows, plan.hits d.paths row.2 = matchCount ctx filter row.2 := by
    intro row hrow
    have hfound := hits_pos_iff indexes hd hname.symm hlen hresidual hrows hrow
    have hle := hits_le_one hclasses d.paths row.2
    rw [matchCount]
    split
    case isTrue hmatch =>
      have := hfound.2 hmatch
      omega
    case isFalse hmatch =>
      have := mt hfound.1 hmatch
      omega
  constructor
  · rw [extraHits, map_congr_left fun row hrow => by rw [hsame row hrow, Nat.sub_self]]
    simp
  · rw [missedRows, map_congr_left fun row hrow => by rw [hsame row hrow, Nat.sub_self]]
    simp

/-! ## The order of the accumulators -/

/-- What the accumulators compare: numbers by their exact value, nothing for NaN and
binaries. -/
inductive ScalarKey where
  | null
  | bool (b : Bool)
  | num (n : Int)
  | str (bytes : Bytes)

def ScalarRef.scalarKey : ScalarRef → Option ScalarKey
  | .null => some .null
  | .bool b => some (.bool b)
  | .int i => some (.num (i.toInt * F64.one))
  | .f64 f => if f.isNaN then none else some (.num f.scaled)
  | .str s => some (.str s.bytes)
  | .bin _ => none

/-- The comparison of keys; keys of different types have none. -/
def ScalarKey.cmp : ScalarKey → ScalarKey → Option Ordering
  | .null, .null => some .eq
  | .bool a, .bool b => some (compare a b)
  | .num a, .num b => some (compare a b)
  | .str a, .str b => some (if a < b then .lt else if a = b then .eq else .gt)
  | _, _ => none

theorem compare_mul_one (a b : Int) : compare (a * F64.one) (b * F64.one) = compare a b := by
  have hone : (0 : Int) < F64.one := Int.natCast_pos.2 F64.one_pos
  rw [← cmp_eq_compare, ← cmp_eq_compare]
  exact (strictMono_mul_right_of_pos hone).cmp_map_eq a b

/-- `cmp_scalar` compares keys. -/
theorem ScalarRef.cmpScalar_eq (a b : ScalarRef) :
    a.cmpScalar b = a.scalarKey.bind fun x => b.scalarKey.bind fun y => x.cmp y := by
  cases a with
  | int i =>
    cases b with
    | int j =>
      show some (compare i.toInt j.toInt) = some (compare (i.toInt * F64.one) (j.toInt * F64.one))
      rw [compare_mul_one]
    | f64 f =>
      simp only [ScalarRef.cmpScalar, ScalarRef.scalarKey]
      cases hnan : f.isNaN with
      | true =>
        rw [cmpI64F64, if_pos hnan]
        rfl
      | false =>
        rw [cmpI64F64_eq i hnan]
        rfl
    | _ => rfl
  | f64 f =>
    cases b with
    | int j =>
      simp only [ScalarRef.cmpScalar, ScalarRef.scalarKey]
      cases hnan : f.isNaN with
      | true =>
        rw [cmpI64F64, if_pos hnan]
        rfl
      | false =>
        rw [cmpI64F64_eq j hnan, map_some, ← Std.OrientedOrd.eq_swap]
        rfl
    | f64 g =>
      simp only [ScalarRef.cmpScalar, ScalarRef.scalarKey, F64.partialCmp]
      cases f.isNaN <;> cases g.isNaN <;> simp [ScalarKey.cmp]
    | _ => simp only [ScalarRef.scalarKey]; split <;> rfl
  | _ =>
    cases b with
    | f64 g => simp only [ScalarRef.scalarKey]; split <;> rfl
    | _ => rfl

theorem bytes_cmp_gt_iff :
    (if a < b then Ordering.lt else if a = b then .eq else .gt) = .gt ↔ b < a :=
  compareOfLessAndEq_eq_gt List.le_antisymm List.le_total List.not_le a b

theorem bytes_cmp_lt_iff :
    (if a < b then Ordering.lt else if a = b then .eq else .gt) = .lt ↔ a < b :=
  compareOfLessAndEq_eq_lt

/-- The comparison of keys is antisymmetric. -/
theorem ScalarKey.cmp_lt_iff (x y : ScalarKey) : x.cmp y = some .lt ↔ y.cmp x = some .gt := by
  cases x <;> cases y <;> simp only [ScalarKey.cmp, reduceCtorEq, some.injEq]
  case bool.bool a b => revert a b; decide
  case num.num a b => rw [compare_lt_iff_lt, compare_gt_iff_gt]
  case str.str a b => rw [bytes_cmp_lt_iff, bytes_cmp_gt_iff]

/-- Comparable keys are ordered strictly and weakly. -/
theorem ScalarKey.strictWeak : FirstExtreme.StrictWeak
    (fun x y : ScalarKey => x.cmp y = some .gt) (fun x y => x.cmp y ≠ none) where
  symm := by
    intro x y
    cases x <;> cases y <;> simp [ScalarKey.cmp]
  trans := by
    intro x y z
    cases x <;> cases y <;> cases z <;> simp [ScalarKey.cmp]
  comparable_of_worse := by
    intro x y h
    simp [h]
  worse_trans := by
    intro x y z hxy hyz
    cases x <;> cases y <;> cases z <;>
      simp only [ScalarKey.cmp, reduceCtorEq, some.injEq] at hxy hyz ⊢
    case bool.bool.bool a b c => revert a b c; decide
    case num.num.num a b c =>
      rw [compare_gt_iff_gt] at hxy hyz ⊢
      omega
    case str.str.str a b c =>
      rw [bytes_cmp_gt_iff] at hxy hyz ⊢
      exact List.lt_trans hyz hxy
  cotrans := by
    intro x y z hxz hxy
    cases x <;> cases y <;> cases z <;>
      simp only [ScalarKey.cmp, reduceCtorEq, some.injEq, ne_eq, not_true_eq_false] at hxz hxy ⊢
    case bool.bool.bool a b c => revert a b c; decide
    case num.num.num a b c =>
      rw [compare_gt_iff_gt] at hxz
      rw [compare_gt_iff_gt, compare_gt_iff_gt]
      omega
    case str.str.str a b c =>
      rw [bytes_cmp_gt_iff] at hxz
      rw [bytes_cmp_gt_iff, bytes_cmp_gt_iff]
      by_cases hba : b < a
      · exact Or.inl hba
      · refine Or.inr ?_
        by_contra hcb
        exact List.not_lt.2 (List.le_trans (List.not_lt.1 hba) (List.not_lt.1 hcb)) hxz

/-- A value that the accumulator replaces by another. -/
def Extreme.Worse (e : Extreme) (a b : ScalarRef) : Prop := a.cmpScalar b = some e.wins

instance (e : Extreme) : DecidableRel e.Worse := fun _ _ => inferInstanceAs (Decidable (_ = _))

def ScalarRef.Comparable (a b : ScalarRef) : Prop := a.cmpScalar b ≠ none

theorem ScalarRef.cmpScalar_eq_some {a b : ScalarRef} {o : Ordering} :
    a.cmpScalar b = some o ↔
      ∃ x y, a.scalarKey = some x ∧ b.scalarKey = some y ∧ x.cmp y = some o := by
  simp only [ScalarRef.cmpScalar_eq, bind_eq_some_iff]
  constructor
  · rintro ⟨x, hx, y, hy, h⟩
    exact ⟨x, y, hx, hy, h⟩
  · rintro ⟨x, y, hx, hy, h⟩
    exact ⟨x, hx, y, hy, h⟩

/-- **The accumulators compare by a strict weak order on each type.** -/
theorem Extreme.strictWeak (e : Extreme) :
    FirstExtreme.StrictWeak e.Worse ScalarRef.Comparable := by
  have hcomparable : ScalarRef.Comparable = fun a b =>
      ∃ x y, a.scalarKey = some x ∧ b.scalarKey = some y ∧ x.cmp y ≠ none := by
    funext a b
    refine propext ?_
    simp only [ScalarRef.Comparable, ne_none_iff_exists', ScalarRef.cmpScalar_eq_some]
    constructor
    · rintro ⟨o, x, y, hx, hy, h⟩
      exact ⟨x, y, hx, hy, o, h⟩
    · rintro ⟨x, y, hx, hy, o, h⟩
      exact ⟨o, x, y, hx, hy, h⟩
  have hworse : e.Worse = fun a b =>
      ∃ x y, a.scalarKey = some x ∧ b.scalarKey = some y ∧ x.cmp y = some e.wins := by
    funext a b
    exact propext ScalarRef.cmpScalar_eq_some
  rw [hcomparable, hworse]
  cases e with
  | min => exact ScalarKey.strictWeak.comap _
  | max =>
    have hflip : (fun x y : ScalarKey => x.cmp y = some Extreme.max.wins) =
        fun x y => y.cmp x = some .gt := by
      funext x y
      exact propext (ScalarKey.cmp_lt_iff x y)
    have := ScalarKey.strictWeak.flip
    rw [← hflip] at this
    exact this.comap _

/-! ## What the accumulators return -/

theorem ScalarRef.toValue_inj {a b : ScalarRef} (h : a.toValue = b.toValue) : a = b := by
  have := congrArg Value.toScalar h
  simpa using this

/-- The fold keeps the first extreme value. -/
theorem foldl_step_some (lib : NumericLib) (e : Extreme) (cur : Value) (vs : List Value) :
    ∃ v, vs.foldl (e.step lib) (some cur) = some v ∧
      v.toScalar = cur.toScalar.map fun a =>
        (vs.filterMap Value.toScalar).foldl (FirstExtreme.keep e.Worse) a := by
  induction vs generalizing cur with
  | nil => exact ⟨cur, rfl, by simp⟩
  | cons w vs ih =>
    rw [foldl_cons, Extreme.step]
    -- the value after this step, and what it is as a scalar
    obtain ⟨v, hv, hscalar⟩ : ∃ v, (if cmpLeaf lib cur w = some e.wins then some w else some cur) =
        some v ∧ v.toScalar = cur.toScalar.map fun a =>
          (w.toScalar.toList).foldl (FirstExtreme.keep e.Worse) a := by
      unfold cmpLeaf
      cases hcur : cur.toScalar with
      | none =>
        cases hw : w.toScalar with
        | none =>
          dsimp only
          split
          · exact ⟨w, rfl, by simp [hw]⟩
          · exact ⟨cur, rfl, by simp [hcur]⟩
        | some b => exact ⟨cur, by simp, by simp [hcur]⟩
      | some a =>
        cases hw : w.toScalar with
        | none => exact ⟨cur, by simp, by simp [hcur]⟩
        | some b =>
          simp only [toList_some, foldl_cons, map_some, FirstExtreme.keep]
          by_cases hworse : e.Worse a b
          · rw [if_pos hworse, if_pos (show a.cmpScalar b = some e.wins from hworse)]
            exact ⟨w, rfl, hw⟩
          · rw [if_neg hworse, if_neg (show ¬ a.cmpScalar b = some e.wins from hworse)]
            exact ⟨cur, rfl, hcur⟩
    rw [hv]
    obtain ⟨u, hu, huscalar⟩ := ih v
    refine ⟨u, hu, ?_⟩
    rw [huscalar, hscalar, Option.map_map]
    congr 1
    funext a
    cases hw : w.toScalar with
    | none => simp [hw]
    | some b => simp [hw]

/-- The accumulators end with a value: the first value of the field is a scalar, and the value
is the first extreme of the scalars. -/
def EndsWith (e : Extreme) (leaves : List Value) (x : ScalarRef) : Prop :=
  (∀ v ∈ leaves.head?, v.toScalar ≠ none) ∧
    FirstExtreme.IsFirst e.Worse ScalarRef.Comparable (leaves.filterMap Value.toScalar) x

/-- **The accumulators return a scalar** exactly if they end with it. -/
theorem accumulate_eq_iff (lib : NumericLib) (e : Extreme) {leaves : List Value}
    (hne : leaves ≠ []) (x : ScalarRef) :
    e.accumulate lib leaves = x.toValue ↔ EndsWith e leaves x := by
  cases leaves with
  | nil => exact absurd rfl hne
  | cons v vs =>
    obtain ⟨u, hu, hscalar⟩ := foldl_step_some lib e v vs
    have haccum : e.accumulate lib (v :: vs) = u := by
      rw [Extreme.accumulate, foldl_cons, show e.step lib none v = some v from rfl, hu]
      rfl
    rw [haccum]
    cases hv : v.toScalar with
    | none =>
      rw [hv] at hscalar
      constructor
      · rintro rfl
        simp at hscalar
      · rintro ⟨hhead, -⟩
        exact absurd hv (hhead v rfl)
    | some a =>
      rw [hv, map_some] at hscalar
      obtain rfl := Value.toValue_of_toScalar hscalar
      rw [EndsWith, filterMap_cons_some hv, ← FirstExtreme.foldl_keep_eq_iff e.strictWeak]
      constructor
      · intro h
        refine ⟨?_, ScalarRef.toValue_inj h⟩
        simp [hv]
      · rintro ⟨-, h⟩
        rw [h]

/-! ## The first and the last posting -/

/-- A value no posted value is before, or none is after. -/
def Outermost (e : Extreme) (d : SortedDef) (table : Table) (x : ScalarRef) : Prop :=
  (∃ row ∈ table.rows, d.value row = some x) ∧
    ∀ row ∈ table.rows, ∀ y, d.value row = some y → (match e with
        | .min => x.sortLe y
        | .max => y.sortLe x) = true

theorem sortLe_of_eq_or_precedes {a b : Row} {x y : ScalarRef} (ha : d.value a = some x)
    (hb : d.value b = some y) (h : a = b ∨ d.Precedes a b) : x.sortLe y = true := by
  obtain ⟨cx, hcx⟩ := exists_code ha
  obtain ⟨cy, hcy⟩ := exists_code hb
  rw [← encodeForSort_le_iff hcx hcy]
  rcases h with rfl | ⟨v, w, hv, hw, h⟩
  · obtain rfl := some.inj (ha.symm.trans hb)
    rw [some.inj (hcx.symm.trans hcy)]
    exact List.le_refl _
  obtain rfl := some.inj (ha.symm.trans hv)
  obtain rfl := some.inj (hb.symm.trans hw)
  rcases h with h | ⟨rfl, -⟩
  · exact List.not_lt.1 (List.lt_asymm ((encodeForSort_lt_iff hcx hcy).2 h))
  · rw [some.inj (hcx.symm.trans hcy)]
    exact List.le_refl _

/-- An outermost value is the only one. -/
theorem Outermost.unique {e : Extreme} {x y : ScalarRef} (hx : Outermost e d table x)
    (hy : Outermost e d table y) : x = y := by
  obtain ⟨⟨a, ha, hax⟩, hx⟩ := hx
  obtain ⟨⟨b, hb, hby⟩, hy⟩ := hy
  obtain ⟨cx, hcx⟩ := exists_code hax
  obtain ⟨cy, hcy⟩ := exists_code hby
  have hxy : cx ≤ cy ∧ cy ≤ cx := by
    have h := hx b hb y hby
    have h' := hy a ha x hax
    cases e with
    | min => exact ⟨(encodeForSort_le_iff hcx hcy).2 h, (encodeForSort_le_iff hcy hcx).2 h'⟩
    | max => exact ⟨(encodeForSort_le_iff hcx hcy).2 h', (encodeForSort_le_iff hcy hcx).2 h⟩
  rw [List.le_antisymm hxy.1 hxy.2] at hcx
  exact encodeForSort_inj hcx hcy

theorem head?_filterMap_of_isSome (h : ∀ x ∈ xs, ∃ y, f x = some y) :
    (xs.filterMap f).head? = xs.head?.bind f := by
  cases xs with
  | nil => rfl
  | cons x xs =>
    obtain ⟨y, hy⟩ := h x (by simp)
    rw [filterMap_cons_some hy, head?_cons, head?_cons, bind_some, hy]

theorem getLast?_filterMap_of_isSome (h : ∀ x ∈ xs, ∃ y, f x = some y) :
    (xs.filterMap f).getLast? = xs.getLast?.bind f := by
  rw [getLast?_eq_head?_reverse, getLast?_eq_head?_reverse, ← filterMap_reverse]
  exact head?_filterMap_of_isSome fun x hx => h x (mem_reverse.1 hx)

/-- **The posting a shortcut reads** is that of a row with the outermost value. -/
theorem lookupExtreme_spec (indexes : SortedIndexes table) (hd : d ∈ indexes.defs) (e : Extreme)
    {id : RecordId} (h : lookupExtreme indexes.keys e d.name = some id) :
    ∃ row ∈ table.rows, row.1 = id ∧ ∃ x, d.value row = some x ∧ Outermost e d table x := by
  have hdecode : ∀ k ∈ indexKeys indexes.keys d.name, ∃ id, decodeRecordIdSuffix k = some id := by
    intro k hk
    simp only [indexKeys, mem_filter, Bool.and_eq_true, decide_eq_true_eq] at hk
    obtain ⟨row, -, hpost⟩ := indexes.posting_of_between hd hk.1 hk.2.1 hk.2.2
    obtain ⟨v, c, -, -, rfl⟩ := posting_eq_some.1 hpost
    exact ⟨row.1, decodeRecordIdSuffix_posting _ _ _⟩
  obtain ⟨rows, hids, hordered, hmem⟩ := @rangeIds_spec d none none none none table indexes hd
    trivial trivial
  have hposted : ∀ row, row ∈ rows ↔ row ∈ table.rows ∧ ∃ v, d.value row = some v := by
    intro row
    rw [hmem]
    simp [inBounds]
  cases e with
  | min =>
    have hhead : (rows.map Prod.fst).head? = some id := by
      rw [← hids]
      exact (head?_filterMap_of_isSome hdecode).trans h
    cases rows with
    | nil => simp at hhead
    | cons row rows =>
      obtain ⟨hrow, x, hx⟩ := (hposted row).1 (by simp)
      refine ⟨row, hrow, some.inj hhead, x, hx, ⟨row, hrow, hx⟩, fun row' hrow' y hy => ?_⟩
      apply sortLe_of_eq_or_precedes hx hy
      have hlater := mem_cons.1 ((hposted row').2 ⟨hrow', y, hy⟩)
      exact hlater.imp Eq.symm ((pairwise_cons.1 hordered).1 row')
  | max =>
    have hlast : (rows.map Prod.fst).getLast? = some id := by
      rw [← hids]
      exact (getLast?_filterMap_of_isSome hdecode).trans h
    rcases eq_nil_or_concat rows with rfl | ⟨init, row, rfl⟩
    · simp at hlast
    obtain ⟨hrow, x, hx⟩ := (hposted row).1 (by simp)
    have hid : row.1 = id := by simpa using hlast
    refine ⟨row, hrow, hid, x, hx, ⟨row, hrow, hx⟩, fun row' hrow' y hy => ?_⟩
    rw [concat_eq_append] at hordered hposted
    apply sortLe_of_eq_or_precedes hy hx
    rcases mem_append.1 ((hposted row').2 ⟨hrow', y, hy⟩) with hearlier | hlater
    · exact .inr ((pairwise_append.1 hordered).2.2 row' hearlier row (by simp))
    · exact .inl (mem_singleton.1 hlater)

/-! ## Shortcut and scan -/

variable (ctx) in
/-- When a shortcut is right: the counter is the number of rows (`RecordCounter` says after which
runs it is); the lookups count as much too much as they miss (`hits_exact`: neither for a list of
pairwise different classes); the column has an alias, and the accumulators end with the outermost
value of the index. -/
def ShortcutAgrees (st : TableState digest) (q : AggregateQuery) : Prop :=
  match q.item, q.filter with
  | .countAll, none => st.counter = st.table.rows.length
  | .countAll, some f => ∀ plan, tryPlanIndexScan ctx st.hash.defs f = some plan →
      ∀ d ∈ st.hash.defs, d.name = plan.name →
        extraHits ctx st.table f plan d.paths = missedRows ctx st.table f plan d.paths
  | .aggregate e path, _ => q.aliasName ≠ none ∧ ∀ fieldPath d x,
      internFieldPath ctx path = some fieldPath →
      findByFieldReady st.sorted.defs fieldPath = some d → Outermost e d st.table x →
        EndsWith e (leavesAt ctx st.table.rows path) x

/-- The shortcut returns an outermost value. -/
theorem extremeShortcut_spec (indexes : SortedIndexes table) {e : Extreme} {v : Value}
    (h : extremeShortcut ctx table indexes.keys indexes.defs e path = some v) :
    ∃ fieldPath d x, internFieldPath ctx path = some fieldPath ∧
      findByFieldReady indexes.defs fieldPath = some d ∧ Outermost e d table x ∧
        v = x.toValue ∧ leavesAt ctx table.rows path ≠ [] := by
  obtain ⟨fieldPath, hpath, h⟩ := bind_eq_some_iff.1 h
  obtain ⟨d, hfind, h⟩ := bind_eq_some_iff.1 h
  obtain ⟨id, hid, h⟩ := bind_eq_some_iff.1 h
  obtain ⟨record, hget, rfl⟩ := map_eq_some_iff.1 h
  obtain ⟨hfound, -⟩ := filter_eq_some_iff.1 hfind
  have htest := find?_some hfound
  obtain rfl : d.path = fieldPath := of_decide_eq_true htest
  obtain ⟨row, hrow, rfl, x, hx, houter⟩ :=
    lookupExtreme_spec indexes (mem_of_find?_eq_some hfound) e hid
  have hrecord : record = row.2 := by
    rw [← table.unique (table.get_eq_some.1 hget) hrow rfl]
  obtain ⟨w, hw, hscalar⟩ := bind_eq_some_iff.1 (value_eq_some.1 hx).1
  obtain rfl := Value.toValue_of_toScalar hscalar
  refine ⟨d.path, d, x, hpath, hfind, houter, by rw [hrecord, hw, getD_some], ?_⟩
  rw [leavesAt, hpath]
  exact ne_nil_of_mem (mem_filterMap.2 ⟨row, hrow, hw⟩)

/-- **When a shortcut returns what the scan returns.** -/
theorem aggregateShortcut_eq_iff {st : TableState digest} {q : AggregateQuery}
    {answer : String × AggregateValue} (h : aggregateShortcut ctx st q = some answer) :
    answer = aggregateScan ctx lower st.table q ↔ ShortcutAgrees ctx st q := by
  obtain ⟨item, aliasName, filter⟩ := q
  rcases item with _ | ⟨e, path⟩ <;> rcases filter with _ | f
  · obtain rfl := some.inj h
    simp [aggregateScan, ShortcutAgrees]
  · cases hplan : tryPlanIndexScan ctx st.hash.defs f with
    | none => simp [aggregateShortcut, hplan] at h
    | some plan =>
      simp only [aggregateShortcut, hplan] at h
      split at h
      case isFalse => simp at h
      case isTrue =>
        obtain rfl := some.inj h
        simp only [aggregateScan, ShortcutAgrees, hplan, Prod.mk.injEq, true_and,
          AggregateValue.count.injEq, some.injEq, forall_eq']
        exact sum_lookups_eq_length_iff st.hash hplan
  · obtain ⟨v, hv, rfl⟩ := map_eq_some_iff.1 h
    obtain ⟨fieldPath, d, x, hpath, hfind, houter, rfl, hne⟩ := extremeShortcut_spec st.sorted hv
    have hname : (aliasName.getD (path.getLast?.getD e.fallback) =
        aliasName.getD (lower.toLowercase (e.debug ++ "_" ++ joinDots path))) ↔
          aliasName ≠ none := by
      cases aliasName with
      | none => simpa using scan_name_ne lower e path
      | some a => simp
    simp only [aggregateScan, ShortcutAgrees, Prod.mk.injEq, AggregateValue.value.injEq, hname]
    rw [eq_comm, accumulate_eq_iff ctx.lib e hne]
    refine and_congr_right fun _ => ?_
    constructor
    · intro hends fieldPath' d' x' hpath' hfind' houter'
      obtain rfl := some.inj (hpath.symm.trans hpath')
      obtain rfl := some.inj (hfind.symm.trans hfind')
      rw [houter'.unique houter]
      exact hends
    · exact fun hall => hall fieldPath d x hpath hfind houter
  · simp [aggregateShortcut] at h

/-! ## A table of one row -/

/-- The state of a table of one row with an index of each kind on its field. -/
def oneState (v : Value) (entry : Bytes × Bytes) (key : Bytes)
    (h : (⟨7, [[1]]⟩ : IndexDef).posting zeroDigest (firstId, .map [(1, v)]) = some entry)
    (h' : (⟨7, [1], true⟩ : SortedDef).posting (firstId, .map [(1, v)]) = some key) :
    TableState zeroDigest :=
  ⟨⟨[(firstId, .map [(1, v)])], pairwise_singleton _ _⟩, oneIndex v entry h,
    .ofRow ⟨7, [1], true⟩ key h', 1⟩

/-- Lower case for names of ASCII letters. -/
def asciiLowercase : Lowercase where
  toLowercase := String.toLower
  length_le := fun s => by
    show s.length ≤ (s.map Char.toLower).length
    simp

/-- A membership list with values of different classes. -/
theorem aggregateShortcut_eq_int :
    aggregateShortcut oneField (oneState (.int 5) _ _ rfl rfl)
        ⟨.countAll, none, some (.isIn ["n"] [.lit (.int 5), .lit .null])⟩ =
      some (aggregateScan oneField asciiLowercase (oneState (.int 5) _ _ rfl rfl).table
        ⟨.countAll, none, some (.isIn ["n"] [.lit (.int 5), .lit .null])⟩) := by
  refine congrArg some ((aggregateShortcut_eq_iff asciiLowercase rfl).2 ?_)
  intro plan hplan d hd _
  obtain rfl := some.inj hplan
  obtain rfl := mem_singleton.1 hd
  decide +kernel

/-- **A row is counted for each value of its class**, and **the columns have different names**:
one row with `5`, counted with `n IN (5, 5.0)`, and its minimum without an alias. -/
theorem aggregateShortcut_ne_scan :
    (∃ answer, aggregateShortcut oneField (oneState (.int 5) _ _ rfl rfl)
        ⟨.countAll, none,
          some (.isIn ["n"] [.lit (.int 5), .lit (.f64 ⟨0x4014000000000000⟩)])⟩ = some answer ∧
      answer ≠ aggregateScan oneField asciiLowercase (oneState (.int 5) _ _ rfl rfl).table
        ⟨.countAll, none,
          some (.isIn ["n"] [.lit (.int 5), .lit (.f64 ⟨0x4014000000000000⟩)])⟩) ∧
      ∃ answer, aggregateShortcut oneField (oneState (.int 5) _ _ rfl rfl)
          ⟨.aggregate .min ["n"], none, none⟩ = some answer ∧
        answer ≠ aggregateScan oneField asciiLowercase (oneState (.int 5) _ _ rfl rfl).table
          ⟨.aggregate .min ["n"], none, none⟩ := by
  have hcount : ∀ {a b : String × AggregateValue} {m n : Nat}, a.2 = .count m → b.2 = .count n →
      m ≠ n → a ≠ b := by
    rintro a b m n ha hb hne rfl
    rw [ha, AggregateValue.count.injEq] at hb
    exact hne hb
  refine ⟨⟨_, rfl, hcount rfl rfl (by decide +kernel)⟩, _, rfl, fun h => ?_⟩
  exact absurd (congrArg Prod.fst h) (by decide +kernel)

end ShamirDb.Query
