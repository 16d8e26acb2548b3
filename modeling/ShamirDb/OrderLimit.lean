/-
# Order by with a limit

A query that orders all rows by one field and takes a page of them is answered from a sorted
index on the field (`try_plan_order_limit_fast_path`, `read_order_limit_fast`): the first or
last ids of the index, in its order, are fetched.  Otherwise the projected rows are sorted by
`compare_qv_sort_keys` (`order.rs`).

The page of the index is a page of the sorted rows if every row has a posting and the order of
the index never inverts the comparison.  A missing field sorts like null, and nulls come last
in ascending order, but the index has the nulls first and no posting for a missing field;
numbers are compared across types, but the index has all integers before all floats.
-/
import ShamirDb.SortedPages
import ShamirDb.RangePlans

namespace ShamirDb.Query

open List Option

/-! ## The comparison of rows -/

inductive OrderDirection where
  | asc
  | desc
deriving DecidableEq

inductive NullsOrder where
  | first
  | last
deriving DecidableEq

/-- `QvSortKey`. -/
inductive QvSortKey where
  | null
  | bool (b : Bool)
  | i64 (i : Int64)
  | f64 (f : F64)
  | dec (d : Decimal)
  | big (b : Int)
  | str (s : Text)
  | other

/-- `QvSortKey::from_query_value`. -/
def QvSortKey.fromQueryValue : Value → QvSortKey
  | .null => .null
  | .bool b => .bool b
  | .int i => .i64 i
  | .f64 f => .f64 f
  | .str s => .str s
  | .dec d => .dec d
  | .big b => .big b
  | .bin _ | .set _ | .list _ | .map _ => .other

/-- The comparison of two keys that are not null; what cannot be compared is equal. -/
def QvSortKey.base (lib : NumericLib) : QvSortKey → QvSortKey → Ordering
  | .i64 x, .i64 y => compare x.toInt y.toInt
  | .f64 x, .f64 y => (x.partialCmp y).getD .eq
  | .i64 x, .f64 y => (cmpI64F64 x y).getD .eq
  | .f64 x, .i64 y => ((cmpI64F64 y x).map Ordering.swap).getD .eq
  | .dec x, .dec y => x.cmp y
  | .i64 x, .dec y => Decimal.cmp ⟨x.toInt, 0⟩ y
  | .dec x, .i64 y => x.cmp ⟨y.toInt, 0⟩
  | .f64 x, .dec y => (x.partialCmp (lib.decToF64 y)).getD .eq
  | .dec x, .f64 y => ((lib.decToF64 x).partialCmp y).getD .eq
  | .big x, .big y => compare x y
  | .i64 x, .big y => compare x.toInt y
  | .big x, .i64 y => (compare y.toInt x).swap
  | .f64 x, .big y => (x.partialCmp (lib.bigToF64 y)).getD .eq
  | .big x, .f64 y => ((lib.bigToF64 x).partialCmp y).getD .eq
  | .dec x, .big y => (cmpBigDec y x).swap
  | .big x, .dec y => cmpBigDec x y
  | .str x, .str y => x.cmp y
  | .bool x, .bool y => cmpBool x y
  | _, _ => .eq

def QvSortKey.isNull : QvSortKey → Bool
  | .null => true
  | _ => false

/-- `compare_qv_sort_keys`. -/
def compareQvSortKeys (lib : NumericLib) (a b : QvSortKey) (direction : OrderDirection)
    (nulls : Option NullsOrder) : Ordering :=
  if a.isNull && b.isNull then .eq
  else if a.isNull || b.isNull then
    let nullsOrder := nulls.getD (match direction with
      | .asc => .last
      | .desc => .first)
    if a.isNull = decide (nullsOrder = .first) then .lt else .gt
  else
    match direction with
    | .asc => a.base lib b
    | .desc => (a.base lib b).swap

/-- `resolve_qv_order_keys` for one field; `field` is what the projected row has there. -/
def resolveQvOrderKey (field : Option Value) : QvSortKey :=
  match field with
  | some v => .fromQueryValue v
  | none => .null

/-- What the sort of the scan is about: its one item, and the field in the projected row. -/
structure RowOrder where
  lib : NumericLib
  direction : OrderDirection
  nulls : Option NullsOrder
  projected : Row → Option Value

/-- One row belongs after another. -/
def RowOrder.After (order : RowOrder) (a b : Row) : Prop :=
  compareQvSortKeys order.lib (resolveQvOrderKey (order.projected a))
    (resolveQvOrderKey (order.projected b)) order.direction order.nulls = .gt

/-! ## The fast path -/

variable (ctx : FilterContext)

/-- `try_plan_order_limit_fast_path_with_context`, for a query of the right shape: the index
and the page. -/
def tryPlanOrderLimitFastPath (defs : List SortedDef) (field : List String) (skip : Nat)
    (takeOpt : Option Nat) : Option (UInt64 × Nat × Nat) :=
  takeOpt.bind fun take =>
    if take = 0 then none
    else
      (internFieldPath ctx field).bind fun path =>
        (findByFieldReady defs path).map fun d => (d.name, take, skip)

/-- `lookup_first_k` and `lookup_last_k`. -/
def lookupK (keys : List Bytes) (direction : OrderDirection) (name : UInt64) (k : Nat) :
    List RecordId :=
  match direction with
  | .asc => (rangeIds keys name none none).take k
  | .desc => (rangeIds keys name none none).reverse.take k

/-- The largest window of the fast path. -/
def maxWindow : Nat := 1000000

/-- `read_order_limit_fast`, up to the rows it goes on to project. -/
def readOrderLimitFast (keys : List Bytes) (table : Table) (name : UInt64) (take skip : Nat)
    (direction : OrderDirection) : Except String (List Row) :=
  if 2 ^ 64 ≤ skip + take then .error "LIMIT + OFFSET overflow"
  else if maxWindow < skip + take then .error "pagination window exceeds 1000000"
  else
    .ok ((((lookupK keys direction name (skip + take)).drop skip).filterMap fun id =>
      (table.get id).map fun record => (id, record)).take take)

/-! ## The listing of an index -/

/-- The order of the index, forwards or backwards. -/
def SortedDef.Before (d : SortedDef) (direction : OrderDirection) (a b : Row) : Prop :=
  match direction with
  | .asc => d.Precedes a b
  | .desc => d.Precedes b a

/-- The rows with a posting in the order of the index. -/
structure Listing (d : SortedDef) (table : Table) (direction : OrderDirection)
    (listing : List Row) : Prop where
  ordered : listing.Pairwise (d.Before direction)
  members : ∀ row, row ∈ listing ↔ row ∈ table.rows ∧ d.value row ≠ none

variable {d : SortedDef} {table : Table} {direction : OrderDirection} {a b : Row}

theorem SortedDef.Precedes.asymm (h : d.Precedes a b) : ¬ d.Precedes b a := by
  obtain ⟨v, w, hv, hw, -⟩ := id h
  obtain ⟨x, hx⟩ := SortedDef.exists_code hv
  obtain ⟨y, hy⟩ := SortedDef.exists_code hw
  have ha := SortedDef.posting_eq_some.2 ⟨v, x, hv, hx, rfl⟩
  have hb := SortedDef.posting_eq_some.2 ⟨w, y, hw, hy, rfl⟩
  rw [← posting_lt_iff hb ha]
  exact List.lt_asymm ((posting_lt_iff ha hb).2 h)

theorem SortedDef.Before.asymm (h : d.Before direction a b) : ¬ d.Before direction b a := by
  cases direction <;> exact SortedDef.Precedes.asymm h

theorem Listing.nodup {listing : List Row} (h : Listing d table direction listing) :
    listing.Nodup := by
  refine h.ordered.imp fun hab heq => ?_
  subst heq
  exact hab.asymm hab

theorem Listing.unique {xs ys : List Row} (hx : Listing d table direction xs)
    (hy : Listing d table direction ys) : xs = ys := by
  have hperm : xs.Perm ys := (perm_ext_iff_of_nodup hx.nodup hy.nodup).2 fun row => by
    rw [hx.members, hy.members]
  exact hperm.eq_of_pairwise (fun a b _ _ hab hba => absurd hba hab.asymm) hx.ordered hy.ordered

/-- The ids of the fast path are those of the listing. -/
theorem lookupK_eq (indexes : SortedIndexes table) (hd : d ∈ indexes.defs)
    (direction : OrderDirection) :
    ∃ listing, Listing d table direction listing ∧ ∀ k,
      lookupK indexes.keys direction d.name k = (listing.take k).map Prod.fst := by
  obtain ⟨rows, hids, hordered, hmem⟩ := @rangeIds_spec d none none none none table indexes hd
    trivial trivial
  have hmembers : ∀ row, row ∈ rows ↔ row ∈ table.rows ∧ d.value row ≠ none := by
    intro row
    rw [hmem, ne_none_iff_exists']
    simp [inBounds]
  cases direction with
  | asc =>
    refine ⟨rows, ⟨hordered, hmembers⟩, fun k => ?_⟩
    rw [lookupK, hids, map_take]
  | desc =>
    refine ⟨rows.reverse, ⟨pairwise_reverse.2 hordered, fun row => ?_⟩, fun k => ?_⟩
    · rw [mem_reverse, hmembers]
    · rw [lookupK, hids, ← map_reverse, map_take]

/-- **The fast path cuts its page from the listing.** -/
theorem readOrderLimitFast_eq (indexes : SortedIndexes table) (hd : d ∈ indexes.defs)
    (direction : OrderDirection) :
    ∃ listing, Listing d table direction listing ∧ ∀ skip take page,
      readOrderLimitFast indexes.keys table d.name take skip direction = .ok page ↔
        skip + take ≤ maxWindow ∧ page = (listing.drop skip).take take := by
  obtain ⟨listing, hlisting, hlookup⟩ := lookupK_eq indexes hd direction
  refine ⟨listing, hlisting, fun skip take page => ?_⟩
  have hpage : ((((lookupK indexes.keys direction d.name (skip + take)).drop skip).filterMap
      fun id => (table.get id).map fun record => (id, record)).take take) =
      (listing.drop skip).take take := by
    have hmem : ∀ row ∈ (listing.take (skip + take)).drop skip, row ∈ table.rows := fun row hrow =>
      ((hlisting.members row).1 (mem_of_mem_take (mem_of_mem_drop hrow))).1
    have hfetch := table.fetch (fun id found => found.map fun record => (id, record))
      (f := some) (fun _ _ => rfl) hmem
    rw [hlookup, ← map_drop, hfetch, filterMap_some, drop_take, take_take]
    congr 1
    omega
  unfold readOrderLimitFast
  rw [hpage]
  split
  case isTrue hover =>
    constructor
    · exact nofun
    · have : maxWindow < 2 ^ 64 := by decide
      omega
  case isFalse =>
    split
    case isTrue hlarge =>
      constructor
      · exact nofun
      · omega
    case isFalse hsmall =>
      rw [Except.ok.injEq]
      constructor
      · exact fun h => ⟨by omega, h.symm⟩
      · exact fun h => h.2.symm

/-- **When the fast path returns pages of the sorted rows.**  Every page it returns, for every
offset and limit, is one exactly if the listing of the index leads the sort: it has all rows
(or as many as a window can have), it never inverts the comparison, and no row outside of it
belongs before one of its rows. -/
theorem readOrderLimitFast_pages_iff {table : Table} (indexes : SortedIndexes table)
    (field : List String) {d : SortedDef} {path : List Nat}
    (hpath : internFieldPath ctx field = some path)
    (hfind : findByFieldReady indexes.defs path = some d) (order : RowOrder) :
    (∀ skip takeOpt name take page,
      tryPlanOrderLimitFastPath ctx indexes.defs field skip takeOpt = some (name, take, skip) →
      readOrderLimitFast indexes.keys table name take skip order.direction = .ok page →
        SortedPages.IsPage order.After table.rows skip take page) ↔
      ∀ listing, Listing d table order.direction listing →
        SortedPages.Leads order.After table.rows maxWindow listing := by
  have hd : d ∈ indexes.defs := by
    obtain ⟨hfound, -⟩ := filter_eq_some_iff.1 hfind
    exact mem_of_find?_eq_some hfound
  have hplan : ∀ skip takeOpt name take,
      tryPlanOrderLimitFastPath ctx indexes.defs field skip takeOpt = some (name, take, skip) ↔
        takeOpt = some take ∧ 0 < take ∧ name = d.name := by
    intro skip takeOpt name take
    unfold tryPlanOrderLimitFastPath
    simp only [hpath, bind_some, hfind, map_some]
    cases takeOpt with
    | none => simp
    | some t =>
      rw [bind_some]
      split
      case isTrue hzero =>
        constructor
        · exact nofun
        · rintro ⟨ht, hpos, -⟩
          have := some.inj ht
          omega
      case isFalse hzero =>
        rw [some.injEq, some.injEq, Prod.mk.injEq, Prod.mk.injEq]
        constructor
        · rintro ⟨rfl, rfl, -⟩
          exact ⟨rfl, Nat.pos_of_ne_zero hzero, rfl⟩
        · rintro ⟨rfl, -, rfl⟩
          exact ⟨rfl, rfl, rfl⟩
  obtain ⟨listing, hlisting, hpages⟩ := readOrderLimitFast_eq indexes hd order.direction
  have hwindows := @SortedPages.forall_isPage_iff _ order.After table.rows listing maxWindow
    (by decide) table.nodup hlisting.nodup fun row hrow => ((hlisting.members row).1 hrow).1
  constructor
  · intro h listing' hlisting'
    rw [hlisting'.unique hlisting, ← hwindows]
    intro skip take hpos hwindow
    exact h skip (some take) d.name take _ ((hplan skip (some take) d.name take).2 ⟨rfl, hpos, rfl⟩)
      ((hpages skip take _).2 ⟨hwindow, rfl⟩)
  · intro h skip takeOpt name take page hp hpage
    obtain ⟨-, hpos, rfl⟩ := (hplan skip takeOpt name take).1 hp
    obtain ⟨hwindow, rfl⟩ := (hpages skip take page).1 hpage
    exact hwindows.2 (h listing hlisting) skip take hpos hwindow

/-! ## Tables of one and of two rows -/

/-- The order of the one field of a row, as `SELECT *` shows it. -/
def oneOrder (direction : OrderDirection) : RowOrder where
  lib := oneField.lib
  direction := direction
  nulls := none
  projected := fun row => descendPath row.2 [1]

/-- Of the rows 5 and 7 the first one backwards is the row of 7. -/
theorem readOrderLimitFast_page_int :
    SortedPages.IsPage (oneOrder .desc).After (twoRows (.int 5) (.int 7)).rows 0 1
      [(secondId, .map [(1, .int 7)])] := by
  have hmem : ∀ row, row ∈ [(secondId, Value.map [(1, .int 7)]), (firstId, .map [(1, .int 5)])] ↔
      row ∈ (twoRows (.int 5) (.int 7)).rows := fun row => by
    rw [mem_pair, or_comm, ← mem_pair]
    rfl
  have hlisting : Listing ⟨7, [1], true⟩ (twoRows (.int 5) (.int 7)) .desc
      [(secondId, .map [(1, .int 7)]), (firstId, .map [(1, .int 5)])] := by
    refine ⟨?_, fun row => ⟨fun hrow => ⟨(hmem row).1 hrow, ?_⟩, fun h => (hmem row).2 h.1⟩⟩
    · rw [pairwise_pair]
      exact ⟨.int 5, .int 7, rfl, rfl, by decide +kernel⟩
    · rcases mem_pair.1 hrow with rfl | rfl <;> decide +kernel
  refine (readOrderLimitFast_pages_iff oneField (.ofTable (twoRows (.int 5) (.int 7))
    ⟨7, [1], true⟩ (by decide +kernel)) ["n"] rfl rfl (oneOrder .desc)).2 (fun listing h => ?_)
    0 (some 1) 7 1 _ rfl rfl
  rw [h.unique hlisting]
  refine ⟨by decide, ?_, fun a _ b hb hnot => ?_⟩
  · rw [take_of_length_le (by decide), pairwise_pair]
    show ¬ compareQvSortKeys _ _ _ _ _ = .gt
    decide +kernel
  · rw [take_of_length_le (by decide)] at hnot
    exact absurd ((hmem b).2 hb) hnot

/-- A sorted index of a table with a row that lacks the field. -/
def unposted : SortedIndexes ⟨[(firstId, .map [])], pairwise_singleton _ _⟩ where
  defs := [⟨7, [1], true⟩]
  keys := []
  named := nodup_singleton _
  ascending := List.Pairwise.nil
  exact_postings := by
    intro key _
    have hnone : (⟨7, [1], true⟩ : SortedDef).posting (firstId, .map []) = none := rfl
    simp [hnone]

/-- **A row without the field is on no page of the index.** -/
theorem readOrderLimitFast_unposted :
    readOrderLimitFast unposted.keys ⟨[(firstId, .map [])], pairwise_singleton _ _⟩ 7 10 0
        .asc = .ok [] ∧
      ¬ SortedPages.IsPage (oneOrder .asc).After [(firstId, .map [])] 0 10 [] := by
  refine ⟨rfl, ?_⟩
  rintro ⟨front, back, -, -, hlen, -⟩
  simp at hlen

end ShamirDb.Query
