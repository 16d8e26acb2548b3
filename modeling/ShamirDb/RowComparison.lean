/-
# The comparison of rows

`apply_order_by_qv` sorts the projected rows by the keys of the ORDER BY items
(`compare_qv_preresolved`): an array of indexes is sorted, and the rows are picked by it.

On the keys of one kind the comparison of an item is that of a linear order, with the nulls
at one end.  Keys of two kinds are equal to it, and so are all that cannot be compared.  A
column is coherent if it does not hold two unequal keys of one kind and a key of another, which
is equal to both.  The comparison of rows is a total preorder if each column is coherent among
the rows that are equal in the columns before it, and exactly then so is the comparison by each
initial part of the ORDER BY list.
-/
import ShamirDb.OrderLimit

namespace ShamirDb.Query

open Std List

/-- `OrderByItem`. -/
structure OrderByItem where
  field : List Nat
  direction : OrderDirection
  nulls : Option NullsOrder
deriving DecidableEq

/-- `get_query_value_field`. -/
def getQueryValueField : Value → List Nat → Option Value
  | v, [] => some v
  | .map entries, k :: path => (entries.lookup k).bind (getQueryValueField · path)
  | _, _ :: _ => none

/-- The key of a row for one item. -/
def OrderByItem.key (item : OrderByItem) (row : Value) : QvSortKey :=
  resolveQvOrderKey (getQueryValueField row item.field)

/-- `compare_qv_preresolved`, on the keys that `resolve_qv_order_keys` finds in two rows. -/
def compareQvPreresolved (lib : NumericLib) : List OrderByItem → Value → Value → Ordering
  | [], _, _ => .eq
  | item :: items, a, b =>
    (compareQvSortKeys lib (item.key a) (item.key b) item.direction item.nulls).then
      (compareQvPreresolved lib items a b)

/-- `qv_sort_permutation`; the stable sort is a merge sort. -/
def qvSortPermutation (lib : NumericLib) (items : List OrderByItem) (rows : List Value) :
    Option (List (Fin rows.length)) :=
  if items = [] ∨ rows.length ≤ 1 then none
  else some ((finRange rows.length).mergeSort fun i j =>
    (compareQvPreresolved lib items (rows.get i) (rows.get j)).isLE)

/-- `apply_order_by_qv`. -/
def applyOrderByQv (lib : NumericLib) (items : List OrderByItem) (rows : List Value) :
    List Value :=
  match qvSortPermutation lib items rows with
  | some idx => idx.map rows.get
  | none => rows

/-! ## Comparisons on some values -/

/-- A comparison is a total preorder on the values with a property. -/
structure TotalOn {α : Type} (cmp : α → α → Ordering) (S : α → Prop) : Prop where
  swap : ∀ a b, S a → S b → cmp a b = (cmp b a).swap
  trans : ∀ a b c, S a → S b → S c → (cmp a b).isLE → (cmp b c).isLE → (cmp a c).isLE

section TotalOn

variable {α : Type} {cmp other : α → α → Ordering} {S : α → Prop}

theorem TotalOn.of_transCmp (htrans : TransCmp other)
    (h : ∀ a b, S a → S b → cmp a b = other a b) : TotalOn cmp S where
  swap := fun a b ha hb => by rw [h a b ha hb, h b a hb ha, htrans.eq_swap]
  trans := fun a b c ha hb hc => by
    rw [h a b ha hb, h b c hb hc, h a c ha hc]
    exact htrans.isLE_trans

/-- Every row equals itself. -/
theorem TotalOn.refl (h : TotalOn cmp S) {a : α} (ha : S a) : cmp a a = .eq := by
  have hswap := h.swap a a ha ha
  cases hcmp : cmp a a <;> rw [hcmp] at hswap <;> first | rfl | cases hswap

/-- Equal rows are interchangeable. -/
theorem TotalOn.eq_trans (h : TotalOn cmp S) {a b c : α} (ha : S a) (hb : S b) (hc : S c)
    (hab : cmp a b = .eq) (hbc : cmp b c = .eq) : cmp a c = .eq := by
  have hle := h.trans a b c ha hb hc (by simp [hab]) (by simp [hbc])
  have hge := h.trans c b a hc hb ha (by simp [h.swap c b hc hb, hbc])
    (by simp [h.swap b a hb ha, hab])
  rw [h.swap c a hc ha] at hge
  cases hcmp : cmp a c <;> rw [hcmp] at hle hge <;>
    first | rfl | exact absurd hle (by decide) | exact absurd hge (by decide)

/-- What is below a lesser one is below. -/
theorem TotalOn.lt_of_lt_of_isLE (h : TotalOn cmp S) {a b c : α} (ha : S a) (hb : S b) (hc : S c)
    (hab : cmp a b = .lt) (hbc : (cmp b c).isLE) : cmp a c = .lt := by
  have hle := h.trans a b c ha hb hc (by simp [hab]) hbc
  cases hcmp : cmp a c with
  | lt => rfl
  | gt => simp [hcmp] at hle
  | eq =>
    -- then `b` would not be above `a`
    have hge := h.trans b c a hb hc ha hbc (by simp [h.swap c a hc ha, hcmp])
    simp [h.swap b a hb ha, hab] at hge

/-- What is equal to one below is below. -/
theorem TotalOn.lt_of_eq_of_lt (h : TotalOn cmp S) {a b c : α} (ha : S a) (hb : S b) (hc : S c)
    (hab : cmp a b = .eq) (hbc : cmp b c = .lt) : cmp a c = .lt := by
  have hle := h.trans a b c ha hb hc (by simp [hab]) (by simp [hbc])
  cases hcmp : cmp a c with
  | lt => rfl
  | gt => simp [hcmp] at hle
  | eq =>
    have hcb := h.eq_trans hb ha hc (by simp [h.swap b a hb ha, hab]) hcmp
    simp [hcb] at hbc

/-- A second comparison that is total among equals makes both total. -/
theorem TotalOn.then_of (h : TotalOn cmp S)
    (hother : ∀ row, S row → TotalOn other fun a => S a ∧ cmp row a = .eq) :
    TotalOn (fun a b => (cmp a b).then (other a b)) S where
  swap a b ha hb := by
    rw [h.swap a b ha hb]
    cases hcmp : cmp b a with
    | lt | gt => rfl
    | eq => exact (hother b hb).swap a b ⟨ha, hcmp⟩ ⟨hb, h.refl hb⟩
  trans a b c ha hb hc hab hbc := by
    have hble : (cmp b c).isLE := by cases hcbc : cmp b c <;> simp [hcbc] at hbc ⊢
    cases hcab : cmp a b with
    | gt => simp [hcab] at hab
    | lt =>
      rw [h.lt_of_lt_of_isLE ha hb hc hcab hble]
      rfl
    | eq =>
      cases hcbc : cmp b c with
      | gt => simp [hcbc] at hbc
      | lt =>
        rw [h.lt_of_eq_of_lt ha hb hc hcab hcbc]
        rfl
      | eq =>
        have hcac := h.eq_trans ha hb hc hcab hcbc
        simp only [hcab, hcbc, hcac, Ordering.eq_then] at hab hbc ⊢
        exact (hother a ha).trans a b c ⟨ha, h.refl ha⟩ ⟨hb, hcab⟩ ⟨hc, hcac⟩ hab hbc

/-- Among equals in the first comparison only the second one counts. -/
theorem TotalOn.then_iff (h : TotalOn cmp S) :
    TotalOn (fun a b => (cmp a b).then (other a b)) S ↔
      ∀ row, S row → TotalOn other fun a => S a ∧ cmp row a = .eq := by
  have hclass : ∀ {row a b}, S row → S a → S b → cmp row a = .eq → cmp row b = .eq →
      cmp a b = .eq := by
    intro row a b hrow ha hb hra hrb
    exact h.eq_trans ha hrow hb (by rw [h.swap a row ha hrow, hra]; rfl) hrb
  refine ⟨fun hthen row hrow => ⟨?_, ?_⟩, h.then_of⟩
  · rintro a b ⟨ha, hra⟩ ⟨hb, hrb⟩
    have hswap := hthen.swap a b ha hb
    rwa [hclass hrow ha hb hra hrb, hclass hrow hb ha hrb hra] at hswap
  · rintro a b c ⟨ha, hra⟩ ⟨hb, hrb⟩ ⟨hc, hrc⟩
    have htrans := hthen.trans a b c ha hb hc
    rwa [hclass hrow ha hb hra hrb, hclass hrow hb hc hrb hrc, hclass hrow ha hc hra hrc]
      at htrans

end TotalOn

/-! ## Keys of one kind -/

/-- What the comparison tells apart; a float has no kind, since NaN is equal to all floats. -/
inductive KeyKind where
  | bool
  | number
  | text
  | other
deriving DecidableEq

/-- The kind of a key that is neither null nor a float. -/
def QvSortKey.kind : QvSortKey → Option KeyKind
  | .null | .f64 _ => none
  | .bool _ => some .bool
  | .i64 _ | .dec _ | .big _ => some .number
  | .str _ => some .text
  | .other => some .other

/-- The key is no float. -/
def QvSortKey.exact : QvSortKey → Bool
  | .f64 _ => false
  | _ => true

/-- The place of a key among those of its kind; an exact number is a decimal. -/
def QvSortKey.rank : QvSortKey → Bool × Decimal × Bytes
  | .bool b => (b, ⟨0, 0⟩, [])
  | .i64 i => (false, ⟨i.toInt, 0⟩, [])
  | .big b => (false, ⟨b, 0⟩, [])
  | .dec d => (false, d, [])
  | .str s => (false, ⟨0, 0⟩, s.bytes)
  | .null | .f64 _ | .other => (false, ⟨0, 0⟩, [])

instance : TransCmp Decimal.cmp where
  eq_swap := OrientedOrd.eq_swap
  isLE_trans {a b c} hab hbc := by
    simp only [Decimal.cmp, isLE_compare] at hab hbc ⊢
    have hpow : ∀ n : Nat, (0 : Int) < 10 ^ n := fun n => Int.pow_pos (by decide)
    refine le_of_mul_le_mul_right ?_ (hpow b.scale)
    calc a.mantissa * 10 ^ c.scale * 10 ^ b.scale
        = a.mantissa * 10 ^ b.scale * 10 ^ c.scale := mul_right_comm _ _ _
      _ ≤ b.mantissa * 10 ^ a.scale * 10 ^ c.scale :=
        mul_le_mul_of_nonneg_right hab (hpow c.scale).le
      _ = b.mantissa * 10 ^ c.scale * 10 ^ a.scale := mul_right_comm _ _ _
      _ ≤ c.mantissa * 10 ^ b.scale * 10 ^ a.scale :=
        mul_le_mul_of_nonneg_right hbc (hpow a.scale).le
      _ = c.mantissa * 10 ^ a.scale * 10 ^ b.scale := mul_right_comm _ _ _

instance : TransCmp fun a b : Bytes => compareOfLessAndEq a b :=
  TransOrd.compareOfLessAndEq_of_antisymm_of_trans_of_total_of_not_le le_antisymm
    List.le_trans List.le_total List.not_le

theorem transCmp_comap {α β : Type*} (f : α → β) (cmp : β → β → Ordering) [TransCmp cmp] :
    TransCmp fun a b => cmp (f a) (f b) where
  eq_swap := OrientedCmp.eq_swap
  isLE_trans := TransCmp.isLE_trans

/-- The order of the ranks. -/
def rankCmp : Bool × Decimal × Bytes → Bool × Decimal × Bytes → Ordering :=
  compareLex (compareOn Prod.fst)
    (compareLex (fun a b => a.2.1.cmp b.2.1) fun a b => compareOfLessAndEq a.2.2 b.2.2)

instance : TransCmp rankCmp :=
  have := transCmp_comap (fun r : Bool × Decimal × Bytes => r.2.1) Decimal.cmp
  have := transCmp_comap (fun r : Bool × Decimal × Bytes => r.2.2) fun a b => compareOfLessAndEq a b
  inferInstanceAs (TransCmp (compareLex _ (compareLex _ _)))

variable {a b : QvSortKey} {kind : KeyKind}

/-- Keys of one kind are compared by their ranks. -/
theorem QvSortKey.base_eq_rankCmp (lib : NumericLib) (ha : a.kind = some kind)
    (hb : b.kind = some kind) : a.base lib b = rankCmp a.rank b.rank := by
  cases a <;> cases b <;> simp [QvSortKey.kind] at ha hb <;> subst ha <;> simp at hb <;>
    simp [QvSortKey.base, QvSortKey.rank, rankCmp, compareLex, compareOn, Decimal.cmp, cmpBigDec,
      cmpBool, compareOfLessAndEq, ← OrientedOrd.eq_swap]
  case str.str => rfl

/-- Only keys of one kind are told apart. -/
theorem QvSortKey.kind_of_base_ne (lib : NumericLib) (ha : a.exact = true) (hb : b.exact = true)
    (h : a.base lib b ≠ .eq) : ∃ kind, a.kind = some kind ∧ b.kind = some kind := by
  cases a <;> cases b <;>
    first
    | exact ⟨_, rfl, rfl⟩
    | exact absurd rfl h
    | exact absurd ha Bool.false_ne_true
    | exact absurd hb Bool.false_ne_true

theorem QvSortKey.kind_of_exact (ha : a.exact = true) (hnull : a.isNull = false) :
    ∃ kind, a.kind = some kind := by
  cases a <;>
    first
    | exact ⟨_, rfl⟩
    | exact absurd ha Bool.false_ne_true
    | exact absurd hnull (by decide)

/-! ## Columns -/

/-- The comparison of two rows by one item. -/
def OrderByItem.compare (lib : NumericLib) (item : OrderByItem) (a b : Value) : Ordering :=
  compareQvSortKeys lib (item.key a) (item.key b) item.direction item.nulls

/-- Nulls come first, if `nulls` or the direction says so. -/
def OrderByItem.nullsFirst (item : OrderByItem) : Bool :=
  item.nulls.getD (match item.direction with
    | .asc => .last
    | .desc => .first) = .first

/-- The nulls at their end. -/
def OrderByItem.nullCmp (item : OrderByItem) : QvSortKey → QvSortKey → Ordering :=
  compareOn fun key => key.isNull != item.nullsFirst

instance (item : OrderByItem) : TransCmp item.nullCmp :=
  inferInstanceAs (TransCmp (compareOn _))

/-- The linear order of a column: the nulls at their end, the other keys by rank. -/
def OrderByItem.cmp (item : OrderByItem) : QvSortKey → QvSortKey → Ordering :=
  compareLex item.nullCmp (match item.direction with
      | .asc => fun a b => rankCmp a.rank b.rank
      | .desc => fun a b => rankCmp b.rank a.rank)

instance (item : OrderByItem) : TransCmp item.cmp := by
  have := transCmp_comap QvSortKey.rank rankCmp
  obtain ⟨_, direction, _⟩ := item
  cases direction
  · exact inferInstanceAs (TransCmp (compareLex _ _))
  · exact inferInstanceAs (TransCmp (compareLex _ fun a b : QvSortKey => rankCmp b.rank a.rank))

section

variable (lib : NumericLib) (item : OrderByItem)

/-- Two keys of which one is null are compared by that. -/
theorem OrderByItem.compareQvSortKeys_null (h : a.isNull = true ∨ b.isNull = true) :
    compareQvSortKeys lib a b item.direction item.nulls = item.nullCmp a b := by
  simp only [compareQvSortKeys, OrderByItem.nullCmp, OrderByItem.nullsFirst, compareOn]
  generalize item.nulls.getD _ = order
  cases ha : a.isNull <;> cases hb : b.isNull <;> simp [ha, hb] at h <;> cases order <;> rfl

theorem OrderByItem.compareQvSortKeys_base (ha : a.isNull = false) (hb : b.isNull = false) :
    compareQvSortKeys lib a b item.direction item.nulls = match item.direction with
      | .asc => a.base lib b
      | .desc => (a.base lib b).swap := by
  unfold compareQvSortKeys
  rw [ha, hb]
  rfl

/-- The direction does not decide what is equal. -/
theorem OrderByItem.compareQvSortKeys_eq_iff (ha : a.isNull = false) (hb : b.isNull = false) :
    compareQvSortKeys lib a b item.direction item.nulls = .eq ↔ a.base lib b = .eq := by
  rw [item.compareQvSortKeys_base lib ha hb]
  split
  · rfl
  · exact Ordering.swap_eq_eq

/-- On the keys of one kind and the nulls the comparison is the linear order. -/
theorem OrderByItem.compareQvSortKeys_eq (ha : a.isNull = true ∨ a.kind = some kind)
    (hb : b.isNull = true ∨ b.kind = some kind) :
    compareQvSortKeys lib a b item.direction item.nulls = item.cmp a b := by
  have hrank : ∀ {x : QvSortKey}, x.isNull = true → x.rank = (false, ⟨0, 0⟩, []) := by
    intro x hx
    cases x <;> first | rfl | cases hx
  by_cases hnull : a.isNull = true ∨ b.isNull = true
  · rw [item.compareQvSortKeys_null lib hnull, OrderByItem.cmp, compareLex]
    cases hcmp : item.nullCmp a b with
    | lt | gt => rfl
    | eq =>
      have hboth : a.isNull = b.isNull := by
        simpa [OrderByItem.nullCmp, compareOn, Std.compare_eq_iff_eq] using hcmp
      have ha : a.rank = (false, ⟨0, 0⟩, []) := hrank (by simpa [hboth] using hnull)
      have hb : b.rank = (false, ⟨0, 0⟩, []) := hrank (by simpa [hboth] using hnull)
      cases item.direction <;> simp [ha, hb, ReflCmp.compare_self]
  · rw [not_or, Bool.not_eq_true, Bool.not_eq_true] at hnull
    rw [item.compareQvSortKeys_base lib hnull.1 hnull.2, QvSortKey.base_eq_rankCmp lib
      (ha.resolve_left (by simp [hnull.1])) (hb.resolve_left (by simp [hnull.2])),
      OrderByItem.cmp, OrderByItem.nullCmp, compareLex, compareOn, hnull.1, hnull.2,
      ReflOrd.compare_self]
    have hswap : OrientedCmp rankCmp := inferInstance
    cases item.direction
    · rfl
    · exact hswap.eq_swap.symm

/-- A column does not hold two unequal keys and a key of another kind. -/
def OrderByItem.Coherent (S : Value → Prop) : Prop :=
  ∀ a b c, S a → S b → S c → (item.key a).isNull = false → (item.key b).isNull = false →
    (item.key c).isNull = false → (item.key a).base lib (item.key c) ≠ .eq →
    (item.key b).kind = (item.key a).kind

/-- Keys of different kinds are equal. -/
theorem OrderByItem.compare_eq_of_kind_ne {x y : Value} (hx : (item.key x).exact = true)
    (hy : (item.key y).exact = true) (hnx : (item.key x).isNull = false)
    (hny : (item.key y).isNull = false) (hkind : (item.key x).kind ≠ (item.key y).kind) :
    item.compare lib x y = .eq := by
  refine (item.compareQvSortKeys_eq_iff lib hnx hny).2 ?_
  by_contra hbase
  obtain ⟨kind, hkx, hky⟩ := QvSortKey.kind_of_base_ne lib hx hy hbase
  exact hkind (hkx.trans hky.symm)

/-- **One column.**  Without floats the comparison by one item is a total preorder on some rows
exactly if the column is coherent. -/
theorem OrderByItem.totalOn_iff {S : Value → Prop}
    (hexact : ∀ row, S row → (item.key row).exact = true) :
    TotalOn (item.compare lib) S ↔ item.Coherent lib S := by
  constructor
  · intro h a b c ha hb hc hna hnb hnc hne
    by_contra hkind
    obtain ⟨kind, hka, hkc⟩ :=
      QvSortKey.kind_of_base_ne lib (hexact a ha) (hexact c hc) hne
    -- the key of another kind is equal to both
    have hab := item.compare_eq_of_kind_ne lib (hexact a ha) (hexact b hb) hna hnb (Ne.symm hkind)
    have hbc := item.compare_eq_of_kind_ne lib (hexact b hb) (hexact c hc) hnb hnc
      (by rwa [hkc, ← hka])
    exact hne ((item.compareQvSortKeys_eq_iff lib hna hnc).1 (h.eq_trans ha hb hc hab hbc))
  · intro h
    by_cases hpair : ∃ a c, S a ∧ S c ∧ (item.key a).isNull = false ∧
        (item.key c).isNull = false ∧ (item.key a).base lib (item.key c) ≠ .eq
    · -- two unequal keys: all others have their kind
      obtain ⟨a, c, ha, hc, hna, hnc, hne⟩ := hpair
      obtain ⟨kind, hkind⟩ := QvSortKey.kind_of_exact (hexact a ha) hna
      have hone : ∀ b, S b → (item.key b).isNull = true ∨ (item.key b).kind = some kind := by
        intro b hb
        cases hnb : (item.key b).isNull with
        | true => exact Or.inl rfl
        | false => exact Or.inr ((h a b c ha hb hc hna hnb hnc hne).trans hkind)
      exact .of_transCmp (transCmp_comap item.key item.cmp) fun a b ha hb =>
        item.compareQvSortKeys_eq lib (hone a ha) (hone b hb)
    · -- all keys beside the nulls are equal
      refine .of_transCmp (transCmp_comap item.key item.nullCmp) fun a b ha hb => ?_
      by_cases hnull : (item.key a).isNull = true ∨ (item.key b).isNull = true
      · exact item.compareQvSortKeys_null lib hnull
      rw [not_or, Bool.not_eq_true, Bool.not_eq_true] at hnull
      have hbase : (item.key a).base lib (item.key b) = .eq := by
        by_contra hne
        exact hpair ⟨a, b, ha, hb, hnull.1, hnull.2, hne⟩
      refine ((item.compareQvSortKeys_eq_iff lib hnull.1 hnull.2).2 hbase).trans ?_
      rw [OrderByItem.nullCmp, compareOn, hnull.1, hnull.2, ReflOrd.compare_self]

end

/-! ## Rows -/

/-- Each column is coherent among the rows that are equal in the columns before it. -/
def Coherent (lib : NumericLib) : List OrderByItem → (Value → Prop) → Prop
  | [], _ => True
  | item :: items, S => item.Coherent lib S ∧
    ∀ row, S row → Coherent lib items fun other => S other ∧ item.compare lib row other = .eq

/-- The rows are compared by a total preorder, and sorting leaves none before a lesser one. -/
structure OrdersRows (lib : NumericLib) (items : List OrderByItem) (rows : List Value) : Prop where
  reflexive : ∀ a ∈ rows, compareQvPreresolved lib items a a = .eq
  antisymmetric : ∀ a ∈ rows, ∀ b ∈ rows,
    compareQvPreresolved lib items a b = (compareQvPreresolved lib items b a).swap
  transitive : ∀ a ∈ rows, ∀ b ∈ rows, ∀ c ∈ rows, (compareQvPreresolved lib items a b).isLE →
    (compareQvPreresolved lib items b c).isLE → (compareQvPreresolved lib items a c).isLE
  ties : ∀ a ∈ rows, ∀ b ∈ rows, ∀ c ∈ rows, compareQvPreresolved lib items a b = .eq →
    compareQvPreresolved lib items b c = .eq → compareQvPreresolved lib items a c = .eq
  permutes : (applyOrderByQv lib items rows).Perm rows
  sorted : (applyOrderByQv lib items rows).Pairwise fun a b =>
    compareQvPreresolved lib items a b ≠ .gt

variable {lib : NumericLib} {items : List OrderByItem} {rows : List Value}

/-- **Columns one after the other.**  Every initial part of an ORDER BY list gives a total
preorder on some rows exactly if they are coherent. -/
theorem coherent_iff {S : Value → Prop}
    (hexact : ∀ item ∈ items, ∀ row, S row → (item.key row).exact = true) :
    Coherent lib items S ↔ ∀ n, TotalOn (compareQvPreresolved lib (items.take n)) S := by
  induction items generalizing S with
  | nil =>
    refine ⟨fun _ n => ?_, fun _ => trivial⟩
    rw [take_nil]
    exact ⟨fun _ _ _ _ => rfl, fun _ _ _ _ _ _ _ _ => rfl⟩
  | cons item items ih =>
    have hitem := item.totalOn_iff lib (hexact item mem_cons_self)
    have htail : ∀ row, Coherent lib items (fun other => S other ∧ item.compare lib row other = .eq) ↔
        ∀ n, TotalOn (compareQvPreresolved lib (items.take n))
          fun other => S other ∧ item.compare lib row other = .eq := fun row =>
      ih fun other hother row hrow => hexact other (mem_cons_of_mem item hother) row hrow.1
    constructor
    · rintro ⟨hcolumn, hrest⟩ n
      cases n with
      | zero => exact ⟨fun _ _ _ _ => rfl, fun _ _ _ _ _ _ _ _ => rfl⟩
      | succ n =>
        exact (hitem.2 hcolumn).then_iff.2 fun row hrow => (htail row).1 (hrest row hrow) n
    · intro h
      have hcolumn : TotalOn (item.compare lib) S := by
        have hfirst := h 1
        refine ⟨fun a b ha hb => ?_, fun a b c ha hb hc => ?_⟩
        · simpa [compareQvPreresolved, OrderByItem.compare] using hfirst.swap a b ha hb
        · simpa [compareQvPreresolved, OrderByItem.compare] using hfirst.trans a b c ha hb hc
      exact ⟨hitem.1 hcolumn, fun row hrow => (htail row).2 fun n =>
        hcolumn.then_iff.1 (h (n + 1)) row hrow⟩

/-- Sorting permutes the rows and leaves none before a lesser one. -/
theorem applyOrderByQv_spec (h : TotalOn (compareQvPreresolved lib items) (· ∈ rows)) :
    (applyOrderByQv lib items rows).Perm rows ∧
      (applyOrderByQv lib items rows).Pairwise fun a b =>
        compareQvPreresolved lib items a b ≠ .gt := by
  unfold applyOrderByQv qvSortPermutation
  split_ifs with hshort
  · refine ⟨.refl _, ?_⟩
    rcases hshort with rfl | hshort
    · exact pairwise_of_forall fun _ _ => by simp [compareQvPreresolved]
    · match rows, hshort with
      | [], _ => exact .nil
      | [row], _ => exact pairwise_singleton _ row
  constructor
  · have hperm := (mergeSort_perm (finRange rows.length) fun i j =>
      (compareQvPreresolved lib items (rows.get i) (rows.get j)).isLE).map rows.get
    rwa [map_get_finRange] at hperm
  rw [pairwise_map]
  refine (pairwise_mergeSort ?_ ?_ _).imp fun hle hgt => ?_
  · intro i j k
    exact h.trans _ _ _ (rows.get_mem i) (rows.get_mem j) (rows.get_mem k)
  · intro i j
    rw [h.swap _ _ (rows.get_mem i) (rows.get_mem j)]
    cases compareQvPreresolved lib items (rows.get j) (rows.get i) <;> rfl
  · rw [hgt] at hle
    cases hle

/-- To order the rows is to be total on them. -/
theorem ordersRows_iff :
    OrdersRows lib items rows ↔ TotalOn (compareQvPreresolved lib items) (· ∈ rows) := by
  constructor
  · intro h
    exact ⟨fun a b ha hb => h.antisymmetric a ha b hb,
      fun a b c ha hb hc => h.transitive a ha b hb c hc⟩
  · intro h
    obtain ⟨hperm, hsorted⟩ := applyOrderByQv_spec h
    exact ⟨fun a ha => h.refl ha, fun a ha b hb => h.swap a b ha hb,
      fun a ha b hb c hc => h.trans a b c ha hb hc, fun a ha b hb c hc => h.eq_trans ha hb hc,
      hperm, hsorted⟩

/-- **ORDER BY sorts by a total preorder.**  On rows without floats the comparison is a total
preorder, and the sorted output has no row before a lesser one, if each column is coherent among
the rows that are equal in the columns before it.  The condition is exact for the list together
with its initial parts. -/
theorem orderBy_total_preorder (lib : NumericLib) (items : List OrderByItem) (rows : List Value)
    (hexact : ∀ item ∈ items, ∀ row ∈ rows, (item.key row).exact = true) :
    (Coherent lib items (· ∈ rows) → OrdersRows lib items rows) ∧
      (Coherent lib items (· ∈ rows) ↔ ∀ n, OrdersRows lib (items.take n) rows) := by
  have hall : Coherent lib items (· ∈ rows) ↔ ∀ n, OrdersRows lib (items.take n) rows :=
    (coherent_iff hexact).trans (forall_congr' fun n => ordersRows_iff.symm)
  refine ⟨fun h => ?_, hall⟩
  have hfull := hall.1 h items.length
  rwa [take_length] at hfull

/-- Two columns, the second with a number and a text: no two rows are equal in the first. -/
theorem orderBy_total_preorder_mixed :
    let items : List OrderByItem := [⟨[1], .desc, none⟩, ⟨[2], .asc, none⟩]
    let rows : List Value := [.map [(1, .int 1), (2, .int 1)], .map [],
      .map [(1, .int 2), (2, .str ⟨[120], by decide⟩)]]
    OrdersRows oneField.lib items rows := by
  intro items rows
  have hexact : ∀ item ∈ items, ∀ row ∈ rows, (item.key row).exact = true := by decide
  refine (orderBy_total_preorder oneField.lib items rows hexact).1 ⟨?_, ?_⟩
  · -- the first column has one kind
    have hkind : ∀ row ∈ rows, (OrderByItem.key ⟨[1], .desc, none⟩ row).isNull = false →
        (OrderByItem.key ⟨[1], .desc, none⟩ row).kind = some .number := by decide
    intro a b c ha hb hc hna hnb hnc hne
    rw [hkind b hb hnb, hkind a ha hna]
  · intro row hrow
    refine ⟨?_, fun _ _ => trivial⟩
    rintro a b c ⟨ha, hra⟩ ⟨hb, hrb⟩ ⟨hc, hrc⟩
    have hclass : ∀ row ∈ rows, ∀ a ∈ rows, ∀ b ∈ rows,
        OrderByItem.compare oneField.lib ⟨[1], .desc, none⟩ row a = .eq →
        OrderByItem.compare oneField.lib ⟨[1], .desc, none⟩ row b = .eq →
        (OrderByItem.key ⟨[2], .asc, none⟩ b).kind = (OrderByItem.key ⟨[2], .asc, none⟩ a).kind := by
      decide
    intro _ _ _ _
    exact hclass row hrow a ha b hb hra hrb

/-- **A text ties with two numbers of which one is greater.** -/
theorem compareQvPreresolved_mixed_column :
    let items : List OrderByItem := [⟨[1], .asc, none⟩]
    let text : Value := .map [(1, .str ⟨[97], by decide⟩)]
    compareQvPreresolved oneField.lib items (.map [(1, .int 1)]) text = .eq ∧
      compareQvPreresolved oneField.lib items text (.map [(1, .int 0)]) = .eq ∧
      compareQvPreresolved oneField.lib items (.map [(1, .int 1)]) (.map [(1, .int 0)]) = .gt :=
  ⟨rfl, rfl, rfl⟩

end ShamirDb.Query
