/-
# Sorted indexes

The postings of a sorted index and the scans over them (`sorted_index_layout.rs`, `scan.rs`).
A posting key is a tag, the name of the index, the code of the value and the id of the row;
a row whose field is missing, a NaN, a decimal, a big integer or a container has none.

The range scan reads the keys of the whole store between two bounds.  The results say which
rows it meets, by the order of the index on their values, and in which order.
-/
import ShamirDb.SortCodec
import ShamirDb.HashIndex

namespace ShamirDb.Query

open List

open VersionCodec (bigEndian)

/-! ## Postings -/

/-- A sorted index: its interned name, its field and whether its backfill is done. -/
structure SortedDef where
  name : UInt64
  path : List Nat
  ready : Bool
deriving DecidableEq

/-- `SORTED_TAG`. -/
def sortedTag : UInt8 := 0x80

/-- `sorted_prefix`. -/
def sortedPrefix (name : UInt64) : Bytes := sortedTag :: bigEndian 8 name.toNat

/-- `sorted_posting_key`. -/
def sortedPostingKey (name : UInt64) (encoded : Bytes) (id : RecordId) : Bytes :=
  sortedPrefix name ++ (encoded ++ id.bytes)

/-- `extract_and_encode`. -/
def extractAndEncode (record : Value) (path : List Nat) : Option Bytes :=
  (scalarAt record path).bind encodeForSort

/-- The key of a row's posting. -/
def SortedDef.posting (d : SortedDef) (row : Row) : Option Bytes :=
  (extractAndEncode row.2 d.path).map fun encoded => sortedPostingKey d.name encoded row.1

/-- The sorted indexes of a table: definitions of different names, and the ascending keys of a
store in which the sorted postings are those of the rows. -/
structure SortedIndexes (table : Table) where
  defs : List SortedDef
  keys : List Bytes
  named : (defs.map SortedDef.name).Nodup
  ascending : keys.Pairwise (· < ·)
  exact_postings : ∀ key : Bytes, key.head? = some sortedTag →
    (key ∈ keys ↔ ∃ d ∈ defs, ∃ row ∈ table.rows, d.posting row = some key)

/-- `find_by_field`. -/
def findByField (defs : List SortedDef) (path : List Nat) : Option SortedDef :=
  defs.find? fun d => decide (d.path = path)

/-- `find_by_field_ready`. -/
def findByFieldReady (defs : List SortedDef) (path : List Nat) : Option SortedDef :=
  (findByField defs path).filter SortedDef.ready

/-! ## Scans -/

/-- `range_bounds`: both ends inclusive; the upper one takes in every id. -/
def rangeBounds (name : UInt64) (lo hi : Option Bytes) : Bytes × Bytes :=
  (match lo with
    | some encoded => sortedPrefix name ++ encoded
    | none => sortedPrefix name,
   match hi with
    | some encoded => sortedPrefix name ++ (encoded ++ replicate 16 0xFF)
    | none => sortedPrefix name ++ replicate 64 0xFF)

/-- `decode_record_id_suffix`. -/
def decodeRecordIdSuffix (key : Bytes) : Option RecordId :=
  if h : 16 ≤ key.length then some ⟨key.drop (key.length - 16), by rw [length_drop]; omega⟩
  else none

/-- The ids of a range in the order of the scan (`lookup_range_with_values`, and what
`lookup_first_k` and `lookup_last_k` cut off). -/
def rangeIds (keys : List Bytes) (name : UInt64) (lo hi : Option Bytes) : List RecordId :=
  (keys.filter fun k => decide ((rangeBounds name lo hi).1 ≤ k) &&
    decide (k ≤ (rangeBounds name lo hi).2)).filterMap decodeRecordIdSuffix

/-- `lookup_range`: sorted by id, without duplicates. -/
def lookupRange (keys : List Bytes) (name : UInt64) (lo hi : Option Bytes) : List RecordId :=
  ((rangeIds keys name lo hi).insertionSort fun a b => a.bytes ≤ b.bytes).dedup

/-! ## Posted values -/

/-- The value of a row in the index: a scalar other than NaN. -/
def SortedDef.value (d : SortedDef) (row : Row) : Option ScalarRef :=
  (scalarAt row.2 d.path).filter fun v => !v.toValue.isNaN

/-- A code for a bound, and none for an open end. -/
def BoundCode : Option ScalarRef → Option Bytes → Prop
  | some l, some encoded => encodeForSort l = some encoded
  | none, none => True
  | _, _ => False

/-- A value between bounds, in the order of the index. -/
def inBounds (lo hi : Option ScalarRef) (v : ScalarRef) : Bool :=
  lo.all (fun l => l.sortLe v) && hi.all (fun h => v.sortLe h)

/-- One row before another in the index: by value, then by id. -/
def SortedDef.Precedes (d : SortedDef) (a b : Row) : Prop :=
  ∃ v w, d.value a = some v ∧ d.value b = some w ∧
    (v.sortLt w = true ∨ (v = w ∧ a.1.bytes < b.1.bytes))

variable {d : SortedDef} {lower upper : Option Bytes} {lo hi : Option ScalarRef} {v w : ScalarRef}
  {table : Table} {row : Row} {x y k : Bytes} {name : UInt64}

/-- A row has a scalar at the path that is not NaN. -/
theorem SortedDef.value_eq_some :
    d.value row = some v ↔ scalarAt row.2 d.path = some v ∧ v.toValue.isNaN = false := by
  simp [SortedDef.value]

/-- A posting is built from the code of the value. -/
theorem SortedDef.posting_eq_some {key : Bytes} :
    d.posting row = some key ↔ ∃ v encoded, d.value row = some v ∧
      encodeForSort v = some encoded ∧ key = sortedPostingKey d.name encoded row.1 := by
  simp only [SortedDef.posting, extractAndEncode, Option.map_eq_some_iff, Option.bind_eq_some_iff,
    SortedDef.value_eq_some]
  constructor
  · rintro ⟨encoded, ⟨v, hv, henc⟩, rfl⟩
    exact ⟨v, encoded, ⟨hv, (encodeForSort_eq_some.1 henc).1⟩, henc, rfl⟩
  · rintro ⟨v, encoded, ⟨hv, -⟩, henc, rfl⟩
    exact ⟨encoded, ⟨v, hv, henc⟩, rfl⟩

theorem SortedDef.exists_code (h : d.value row = some v) :
    ∃ encoded, encodeForSort v = some encoded :=
  ⟨_, encodeForSort_eq_some.2 ⟨(SortedDef.value_eq_some.1 h).2, rfl⟩⟩

section

variable {v : ScalarRef} (hx : encodeForSort v = some x) (hy : encodeForSort w = some y)
include hx hy

/-- Codes that are not equal part. -/
theorem apart_of_code (hne : x ≠ y) : ByteOrder.Apart x y :=
  ⟨fun h => hne (encodeForSort_prefixFree hx hy h),
    fun h => hne (encodeForSort_prefixFree hy hx h).symm⟩

/-- **The order of the keys** is that of the values, and of the ids for one value. -/
theorem sortedPostingKey_lt_iff (name : UInt64) (i j : RecordId) :
    sortedPostingKey name x i < sortedPostingKey name y j ↔
      v.sortLt w = true ∨ v = w ∧ i.bytes < j.bytes := by
  rw [sortedPostingKey, sortedPostingKey, ByteOrder.append_lt_append_left,
    ← encodeForSort_lt_iff hx hy]
  by_cases hxy : x = y
  · subst hxy
    have hvw := encodeForSort_inj hx hy
    subst hvw
    rw [ByteOrder.append_lt_append_left]
    simp
  · have hvw : v ≠ w := by
      rintro rfl
      exact hxy (Option.some.inj (hx.symm.trans hy))
    rw [(apart_of_code hx hy hxy).append_lt_append]
    simp [hvw]

end

/-- Postings are in the order of the rows. -/
theorem posting_lt_iff {a b : Row} {k' : Bytes} (ha : d.posting a = some k)
    (hb : d.posting b = some k') : k < k' ↔ d.Precedes a b := by
  obtain ⟨v, x, hv, hx, rfl⟩ := SortedDef.posting_eq_some.1 ha
  obtain ⟨w, y, hw, hy, rfl⟩ := SortedDef.posting_eq_some.1 hb
  rw [sortedPostingKey_lt_iff hx hy]
  constructor
  · exact fun h => ⟨v, w, hv, hw, h⟩
  · rintro ⟨v', w', hv', hw', h⟩
    rwa [Option.some.inj (hv.symm.trans hv'), Option.some.inj (hw.symm.trans hw')]

/-! ## Which rows a range has -/

theorem code_lt_ff {u : Bytes} (hx : encodeForSort v = some x) : x ++ u ≤ replicate 64 0xFF := by
  obtain ⟨-, rfl⟩ := encodeForSort_eq_some.1 hx
  rw [replicate_succ, cons_append, cons_le_cons_iff]
  refine Or.inl ?_
  cases v <;> simp only [ScalarRef.sortTag] <;> decide

/-- A key lies between the bounds when its value does. -/
theorem key_in_bounds_iff {id : RecordId} (hx : encodeForSort v = some x) (hlo : BoundCode lo lower)
    (hhi : BoundCode hi upper) :
    ((rangeBounds name lower upper).1 ≤ sortedPostingKey name x id ∧
      sortedPostingKey name x id ≤ (rangeBounds name lower upper).2) ↔
      inBounds lo hi v = true := by
  rw [inBounds, Bool.and_eq_true]
  refine and_congr ?_ ?_
  · rcases lo with _ | l <;> rcases lower with _ | y <;> try exact hlo.elim
    · simp only [Option.all_none, iff_true]
      exact List.IsPrefix.le (prefix_append _ _)
    simp only [rangeBounds, sortedPostingKey, Option.all_some]
    rw [ByteOrder.append_le_append_left, ← encodeForSort_le_iff hlo hx]
    by_cases hyx : y = x
    · subst hyx
      exact ⟨fun _ => List.le_refl _, fun _ => List.IsPrefix.le (List.prefix_append _ _)⟩
    · have happend := (apart_of_code hlo hx hyx).append_le_append [] id.bytes
      rwa [append_nil] at happend
  · rcases hi with _ | l <;> rcases upper with _ | y <;> try exact hhi.elim
    · simp only [rangeBounds, sortedPostingKey, Option.all_none, iff_true]
      rw [ByteOrder.append_le_append_left]
      exact code_lt_ff hx
    simp only [rangeBounds, sortedPostingKey, Option.all_some]
    rw [ByteOrder.append_le_append_left, ← encodeForSort_le_iff hx hhi]
    by_cases hxy : x = y
    · subst hxy
      rw [ByteOrder.append_le_append_left]
      exact ⟨fun _ => List.le_refl _, fun _ => ByteOrder.le_replicate_ff id.sixteen.le⟩
    · exact (apart_of_code hx hhi hxy).append_le_append _ _

/-- The id of a posting is read back. -/
theorem decodeRecordIdSuffix_posting (name : UInt64) (x : Bytes) (id : RecordId) :
    decodeRecordIdSuffix (sortedPostingKey name x id) = some id := by
  have hdrop : (sortedPostingKey name x id).drop ((sortedPostingKey name x id).length - 16) =
      id.bytes := by
    rw [sortedPostingKey, ← append_assoc]
    refine drop_left' ?_
    simp only [length_append, id.sixteen]
    omega
  have hlen : 16 ≤ (sortedPostingKey name x id).length := by
    rw [sortedPostingKey, length_append, length_append, id.sixteen]
    omega
  rw [decodeRecordIdSuffix, dif_pos hlen]
  exact congrArg some (RecordId.ext_bytes hdrop)

theorem sortedPrefix_inj {name' : UInt64} (h : sortedPrefix name = sortedPrefix name') :
    name = name' := by
  rw [sortedPrefix, sortedPrefix, cons.injEq] at h
  exact UInt64.toNat_inj.1 (VersionCodec.bigEndian_inj name.toNat_lt name'.toNat_lt h.2)

section

variable (indexes : SortedIndexes table) (hd : d ∈ indexes.defs)
include hd

/-- A key in range is a posting of a row. -/
theorem SortedIndexes.posting_of_between (hk : k ∈ indexes.keys)
    (hlo : (rangeBounds d.name lower upper).1 ≤ k) (hhi : k ≤ (rangeBounds d.name lower upper).2) :
    ∃ row ∈ table.rows, d.posting row = some k := by
  have hstart : sortedPrefix d.name <+: k := by
    have hlower : ∃ b, (rangeBounds d.name lower upper).1 = sortedPrefix d.name ++ b := by
      rcases lower with _ | b
      · exact ⟨[], (append_nil _).symm⟩
      · exact ⟨b, rfl⟩
    have hupper : ∃ c, (rangeBounds d.name lower upper).2 = sortedPrefix d.name ++ c := by
      rcases upper with _ | c <;> exact ⟨_, rfl⟩
    obtain ⟨b, hb⟩ := hlower
    obtain ⟨c, hc⟩ := hupper
    rw [hb] at hlo
    rw [hc] at hhi
    exact ByteOrder.starts_of_between hlo hhi
  obtain ⟨u, rfl⟩ := hstart
  obtain ⟨d', hd', row, hrow, hpost⟩ := (indexes.exact_postings _ rfl).1 hk
  obtain ⟨v, x, -, -, hkey⟩ := SortedDef.posting_eq_some.1 hpost
  obtain ⟨hprefixes, -⟩ := append_inj hkey (by simp [sortedPrefix])
  have hsame : d = d' := inj_on_of_nodup_map indexes.named hd hd' (sortedPrefix_inj hprefixes)
  subst hsame
  exact ⟨row, hrow, hpost⟩

/-- **The rows of a range scan**, in its order: those with a value between the bounds, by
value and then by id. -/
theorem rangeIds_spec (hlo : BoundCode lo lower) (hhi : BoundCode hi upper) :
    ∃ rows : List Row, rangeIds indexes.keys d.name lower upper = rows.map Prod.fst ∧
      rows.Pairwise d.Precedes ∧ ∀ row, row ∈ rows ↔ row ∈ table.rows ∧
        ∃ v, d.value row = some v ∧ inBounds lo hi v = true := by
  -- the row of a key
  let rowOf : Bytes → Option Row := fun k =>
    table.rows.find? fun row => decide (d.posting row = some k)
  let window := indexes.keys.filter fun k => decide ((rangeBounds d.name lower upper).1 ≤ k) &&
    decide (k ≤ (rangeBounds d.name lower upper).2)
  have hrowOf : ∀ {k row}, rowOf k = some row → row ∈ table.rows ∧ d.posting row = some k := by
    intro k row h
    have htest := find?_some h
    exact ⟨mem_of_find?_eq_some h, of_decide_eq_true htest⟩
  have hfound : ∀ k ∈ window, ∃ row, rowOf k = some row := by
    intro k hk
    simp only [window, mem_filter, Bool.and_eq_true, decide_eq_true_eq] at hk
    obtain ⟨row, hrow, hpost⟩ := indexes.posting_of_between hd hk.1 hk.2.1 hk.2.2
    cases hfind : rowOf k with
    | some row' => exact ⟨row', rfl⟩
    | none =>
      have := find?_eq_none.1 hfind row hrow
      exact absurd hpost (by simpa using this)
  refine ⟨window.filterMap rowOf, ?_, ?_, ?_⟩
  · rw [map_filterMap]
    refine filterMap_congr fun k hk => ?_
    obtain ⟨row, hrow⟩ := hfound k hk
    obtain ⟨v, x, -, -, rfl⟩ := SortedDef.posting_eq_some.1 (hrowOf hrow).2
    rw [hrow, decodeRecordIdSuffix_posting]
    rfl
  · refine List.Pairwise.filterMap rowOf ?_ (indexes.ascending.filter _)
    intro k k' hlt a ha b hb
    exact (posting_lt_iff (hrowOf ha).2 (hrowOf hb).2).1 hlt
  intro row
  rw [mem_filterMap]
  constructor
  · rintro ⟨k, hk, hrow⟩
    obtain ⟨hmem, hpost⟩ := hrowOf hrow
    obtain ⟨v, x, hv, hx, rfl⟩ := SortedDef.posting_eq_some.1 hpost
    simp only [window, mem_filter, Bool.and_eq_true, decide_eq_true_eq] at hk
    exact ⟨hmem, v, hv, (key_in_bounds_iff hx hlo hhi).1 hk.2⟩
  rintro ⟨hmem, v, hv, hin⟩
  obtain ⟨x, hx⟩ := SortedDef.exists_code hv
  have hpost : d.posting row = some (sortedPostingKey d.name x row.1) :=
    SortedDef.posting_eq_some.2 ⟨v, x, hv, hx, rfl⟩
  have hk : sortedPostingKey d.name x row.1 ∈ window := by
    simp only [window, mem_filter, Bool.and_eq_true, decide_eq_true_eq]
    exact ⟨(indexes.exact_postings _ rfl).2 ⟨d, hd, row, hmem, hpost⟩,
      (key_in_bounds_iff hx hlo hhi).2 hin⟩
  refine ⟨_, hk, ?_⟩
  obtain ⟨row', hrow'⟩ := hfound _ hk
  obtain ⟨hmem', hpost'⟩ := hrowOf hrow'
  obtain ⟨v', x', -, -, hkey⟩ := SortedDef.posting_eq_some.1 hpost'
  have hid : row.1 = row'.1 := by
    have hdecode := congrArg decodeRecordIdSuffix hkey
    rw [decodeRecordIdSuffix_posting, decodeRecordIdSuffix_posting] at hdecode
    exact Option.some.inj hdecode
  rw [hrow', table.unique hmem hmem' hid]

/-- **The range lookup returns the rows with a value between the bounds**, in the order of
the table. -/
theorem lookupRange_eq (hlo : BoundCode lo lower) (hhi : BoundCode hi upper) :
    lookupRange indexes.keys d.name lower upper =
      (table.rows.filter fun row => (d.value row).any (inBounds lo hi)).map Prod.fst := by
  obtain ⟨rows, hids, -, hmem⟩ := rangeIds_spec indexes hd hlo hhi
  refine @ByteOrder.eq_of_ascending _ RecordId.bytes _ _ ?_ ?_ ?_
  · -- sorted, and no id twice
    have hsorted : (lookupRange indexes.keys d.name lower upper).Pairwise
        fun a b => a.bytes ≤ b.bytes := by
      refine List.Pairwise.sublist (dedup_sublist _) ?_
      exact pairwise_insertionSort _ _
    have hnodup : (lookupRange indexes.keys d.name lower upper).Nodup := nodup_dedup _
    refine (hsorted.and hnodup).imp ?_
    rintro a b ⟨hle, hne⟩
    by_contra hlt
    exact hne (RecordId.ext_bytes (List.le_antisymm hle (List.not_lt.1 hlt)))
  · exact pairwise_map.2 (table.ascending.filter _)
  · intro id
    rw [lookupRange, mem_dedup, mem_insertionSort, hids, mem_map, mem_map]
    refine exists_congr fun row => and_congr_left fun _ => ?_
    rw [hmem, mem_filter]
    cases d.value row <;> simp

end

/-! ## Keys and windows -/

/-- **Sorted index keys.**  Keys of values of one type are in the order of the values, floats in
their total order, and those of one value in the order of the ids.  The keys of the store
between `range_bounds` are the postings of that index with a value from the lower bound to the
upper one, both included. -/
theorem sorted_index_keys :
    (∀ (v w : ScalarRef) (x y : Bytes) (name : UInt64) (i j : RecordId),
      encodeForSort v = some x → encodeForSort w = some y → v.rank = w.rank →
      (sortedPostingKey name x i < sortedPostingKey name y j ↔
        v.nativeLt w = true ∨ v = w ∧ i.bytes < j.bytes)) ∧
    ∀ (table : Table) (indexes : SortedIndexes table), ∀ d ∈ indexes.defs, ∀ lo hi lower upper,
      BoundCode lo lower → BoundCode hi upper → ∀ k ∈ indexes.keys,
      ((rangeBounds d.name lower upper).1 ≤ k ∧ k ≤ (rangeBounds d.name lower upper).2 ↔
        ∃ row ∈ table.rows, d.posting row = some k ∧
          ∃ v, d.value row = some v ∧ inBounds lo hi v = true) := by
  constructor
  · intro v w x y name i j hx hy hrank
    rw [sortedPostingKey_lt_iff hx hy, ScalarRef.sortLt]
    simp [hrank]
  intro table indexes d hd lo hi lower upper hlo hhi k hk
  constructor
  · rintro ⟨hle, hge⟩
    obtain ⟨row, hrow, hpost⟩ := indexes.posting_of_between hd hk hle hge
    obtain ⟨v, x, hv, hx, rfl⟩ := SortedDef.posting_eq_some.1 hpost
    exact ⟨row, hrow, hpost, v, hv, (key_in_bounds_iff hx hlo hhi).1 ⟨hle, hge⟩⟩
  · rintro ⟨row, -, hpost, v, hv, hin⟩
    obtain ⟨w, x, hw, hx, rfl⟩ := SortedDef.posting_eq_some.1 hpost
    cases hv.symm.trans hw
    exact (key_in_bounds_iff hx hlo hhi).2 hin

theorem ascending_row (row : Row) : [row].Pairwise fun a b => a.1.bytes < b.1.bytes :=
  pairwise_singleton _ _

/-- The index of a table of one row. -/
def SortedIndexes.ofRow {row : Row} (d : SortedDef) (key : Bytes)
    (h : d.posting row = some key) : SortedIndexes ⟨[row], ascending_row row⟩ where
  defs := [d]
  keys := [key]
  named := nodup_singleton _
  ascending := pairwise_singleton _ _
  exact_postings := by
    intro k _
    simp only [mem_singleton, exists_eq_left, h, Option.some.injEq]
    exact eq_comm

/-- Texts with a zero byte, the smaller one under the largest id; and the window from one of
them on. -/
theorem sorted_index_keys_texts :
    sortedPostingKey 7 (encodeStr ⟨[0], by decide⟩) ⟨replicate 16 0xFF, rfl⟩ <
        sortedPostingKey 7 (encodeStr ⟨[0, 0x7F], by decide⟩) ⟨replicate 16 0, rfl⟩ ∧
      ∃ row ∈ [((⟨replicate 16 0, rfl⟩ : RecordId), Value.map [(1, .str ⟨[0], by decide⟩)])],
        (⟨7, [1], true⟩ : SortedDef).posting row =
            some (sortedPostingKey 7 (encodeStr ⟨[0], by decide⟩) ⟨replicate 16 0, rfl⟩) ∧
          ∃ v, (⟨7, [1], true⟩ : SortedDef).value row = some v ∧
            inBounds (some (.str ⟨[0], by decide⟩)) none v = true :=
  ⟨(sorted_index_keys.1 (.str ⟨[0], by decide⟩) (.str ⟨[0, 0x7F], by decide⟩) _ _ 7 _ _ rfl rfl
      rfl).2 (.inl (by decide)),
    (sorted_index_keys.2 _ (.ofRow ⟨7, [1], true⟩ _ rfl) _ (mem_singleton.2 rfl)
      (some (.str ⟨[0], by decide⟩)) none (some (encodeStr ⟨[0], by decide⟩)) none rfl trivial _
      (mem_singleton.2 rfl)).1
      ⟨by decide, by decide⟩⟩

/-- The two zeros are equal floats, but the negative one comes first whatever the ids are; and
the window above 5 takes in the postings of 5 itself. -/
theorem sorted_index_zeros_apart :
    F64.beq ⟨0x8000000000000000⟩ ⟨0⟩ = true ∧
      sortedPostingKey 7 (sortTagF64 :: bigEndian 8 (F64.sortBits ⟨0x8000000000000000⟩).toNat)
          ⟨replicate 16 0xFF, rfl⟩ <
        sortedPostingKey 7 (sortTagF64 :: bigEndian 8 (F64.sortBits ⟨0⟩).toNat)
          ⟨replicate 16 0, rfl⟩ ∧
      (rangeBounds 7 (some (encodeI64 5)) none).1 ≤
        sortedPostingKey 7 (encodeI64 5) ⟨replicate 16 0, rfl⟩ := by
  decide

end ShamirDb.Query
