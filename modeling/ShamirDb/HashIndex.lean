/-
# Hash indexes

Tables, the postings a hash index keeps of their rows, and the lookup (`lookup_by_index`).  A
posting key is a namespace byte, the interned name of the index, the identity of the indexed
values and the id of the row.  The identity is the canonical code itself, or a digest of a long
one, in which case the value of the posting carries the code and is compared.

The lookup reads a key-ordered store in which other things are kept too; the result says that
it returns the rows of the table with the probe's code, in the order of the table.
-/
import ShamirDb.CanonicalCodec
import ShamirDb.ByteOrder

namespace ShamirDb.Query

open List

/-! ## Tables -/

/-- The id of a row: sixteen bytes, ordered as such. -/
structure RecordId where
  bytes : Bytes
  sixteen : bytes.length = 16
deriving DecidableEq

/-- A stored row. -/
abbrev Row := RecordId × Value

/-- The rows of a table as a scan visits them, in the order of their ids. -/
structure Table where
  rows : List Row
  ascending : rows.Pairwise fun a b => a.1.bytes < b.1.bytes

/-- `get_many_bytes`, for one id. -/
def Table.get (table : Table) (id : RecordId) : Option Value := table.rows.lookup id

/-- An id is its bytes. -/
theorem RecordId.ext_bytes {a b : RecordId} (h : a.bytes = b.bytes) : a = b := by
  cases a
  cases b
  simpa using h

theorem Table.nodup_ids (table : Table) : (table.rows.map Prod.fst).Nodup := by
  refine pairwise_map.2 (table.ascending.imp ?_)
  intro a b hab heq
  rw [heq] at hab
  exact List.lt_irrefl _ hab

/-- No row is listed twice. -/
theorem Table.nodup (table : Table) : table.rows.Nodup := table.nodup_ids.of_map _

/-- An id has one row. -/
theorem Table.unique (table : Table) {a b : Row} (ha : a ∈ table.rows) (hb : b ∈ table.rows)
    (h : a.1 = b.1) : a = b :=
  inj_on_of_nodup_map table.nodup_ids ha hb h

theorem mem_of_lookup {rows : List Row} {id : RecordId} {r : Value}
    (h : rows.lookup id = some r) : (id, r) ∈ rows := by
  induction rows with
  | nil => simp at h
  | cons row rows ih =>
    obtain ⟨i, v⟩ := row
    rw [lookup_cons] at h
    by_cases hid : id = i
    · subst hid
      simp only [beq_self_eq_true, Option.some.injEq] at h
      rw [h]
      exact mem_cons_self
    · rw [beq_false_of_ne hid] at h
      exact mem_cons_of_mem _ (ih h)

/-- A get returns the row of the id. -/
theorem Table.get_eq_some (table : Table) {id : RecordId} {r : Value} :
    table.get id = some r ↔ (id, r) ∈ table.rows := by
  constructor
  · exact mem_of_lookup
  intro h
  cases hget : table.get id with
  | none =>
    rw [Table.get, lookup_eq_none_iff] at hget
    exact absurd (hget _ h) (by simp)
  | some r' => rw [(Prod.mk.inj (table.unique (mem_of_lookup hget) h rfl)).2]

/-- Fetching rows of the table by their ids gives the rows. -/
theorem Table.fetch (table : Table) {β : Type} (read : RecordId → Option Value → Option β)
    {f : Row → Option β} (hread : ∀ id record, read id (some record) = f (id, record))
    {rows : List Row} (h : ∀ row ∈ rows, row ∈ table.rows) :
    ((rows.map Prod.fst).filterMap fun id => read id (table.get id)) = rows.filterMap f := by
  rw [filterMap_map]
  refine filterMap_congr fun row hrow => ?_
  rw [Function.comp_apply, table.get_eq_some.2 (h row hrow), hread]

/-- Of the fetched rows those are kept that pass a test of the record. -/
theorem Table.fetch_if (table : Table) {rows : List Row} (h : ∀ row ∈ rows, row ∈ table.rows)
    (keep : Value → Bool) :
    ((rows.map Prod.fst).filterMap fun id =>
      match table.get id with
      | some record => if keep record then some (id, record) else none
      | none => none) = rows.filter fun row => keep row.2 := by
  rw [← filterMap_eq_filter]
  exact table.fetch (fun id found =>
    match found with
    | some record => if keep record then some (id, record) else none
    | none => none) (fun _ _ => rfl) h

/-! ## Postings -/

/-- A regular index: its interned name and the paths it covers, in order. -/
structure IndexDef where
  name : UInt64
  paths : List (List Nat)
deriving DecidableEq

/-- The key-value store the postings are kept in, among other things. -/
abbrev InfoStore := List (Bytes × Bytes)

/-- BLAKE3-256. -/
abbrev Digest := Bytes → { d : Bytes // d.length = 32 }

/-- `DIGEST_MARKER`. -/
def digestMarker : UInt8 := 0xFF

/-- `REGULAR_V2`. -/
def regularV2 : UInt8 := 0x02

/-- `INLINE_MAX`. -/
def inlineMax : Nat := 256

section
variable (digest : Digest)

/-- `identity_bytes`. -/
def identityBytes (canonical : Bytes) : Bytes :=
  if canonical.length ≤ inlineMax then canonical else digestMarker :: (digest canonical).1

/-- `build_index_key`: namespace, name, identity. -/
def indexKey (name : UInt64) (canonical : Bytes) : Bytes :=
  regularV2 :: (LittleEndian.toBytes 8 name.toNat ++ identityBytes digest canonical)

/-- The posting of a row; a record that lacks a path or holds a NaN has none. -/
def IndexDef.posting (d : IndexDef) (row : Row) : Option (Bytes × Bytes) :=
  (canonicalFromRecord row.2 d.paths).map fun canonical =>
    (indexKey digest d.name canonical ++ row.1.bytes,
      if canonical.length ≤ inlineMax then [] else canonical)

/-- One entry of the scan of `lookup_by_index`: the key starts with the probe's, has sixteen
bytes more, and the value of a digest form is the probe's code. -/
def scanPosting (name : UInt64) (canonical : Bytes) (entry : Bytes × Bytes) : Option RecordId :=
  let key := indexKey digest name canonical
  if h : key <+: entry.1 ∧ (entry.1.drop key.length).length = 16 then
    if (key.drop 9).head? = some digestMarker then
      if entry.2 = canonical then some ⟨_, h.2⟩ else none
    else some ⟨_, h.2⟩
  else none

/-- `lookup_by_index`. -/
def lookupByIndex (store : InfoStore) (name : UInt64) (values : List Value) : List RecordId :=
  match canonicalFromValues values with
  | none => []
  | some canonical => store.filterMap (scanPosting digest name canonical)

/-- The hash indexes of a table: definitions of different names, and a store, ordered by key,
in which the regular postings are those of the rows. -/
structure HashIndexes (table : Table) where
  defs : List IndexDef
  store : InfoStore
  named : (defs.map IndexDef.name).Nodup
  ascending : store.Pairwise fun a b => a.1 < b.1
  exact_postings : ∀ entry : Bytes × Bytes, entry.1.head? = some regularV2 →
    (entry ∈ store ↔ ∃ d ∈ defs, ∃ row ∈ table.rows, d.posting digest row = some entry)

/-- Whether a record has the code of the probe. -/
def sameCode (record : Value) (paths : List (List Nat)) (values : List Value) : Bool :=
  match canonicalFromRecord record paths, canonicalFromValues values with
  | some c, some c' => decide (c = c')
  | _, _ => false

/-! ## The lookup is exact -/

variable {c c' : Bytes} {name : UInt64} {paths : List (List Nat)} {entry : Bytes × Bytes}
  {record : Value} {values : List Value} {id : RecordId} {d : IndexDef}

/-- Record and values have one canonical code. -/
theorem sameCode_iff :
    sameCode record paths values = true ↔
      ∃ c, canonicalFromRecord record paths = some c ∧ canonicalFromValues values = some c := by
  unfold sameCode
  cases canonicalFromRecord record paths <;> cases canonicalFromValues values <;> simp [eq_comm]

theorem IsCode.head_ne {x : Bytes} (h : IsCode x) (u : Bytes) :
    (x ++ u).head? ≠ some digestMarker := by
  obtain ⟨nested, v, hv⟩ := h
  rcases encodeValue_shape hv with ⟨c, hc, -⟩ | ⟨tag, items, htag, -, rfl, -⟩
  · obtain ⟨rest, rfl⟩ := EqClass.code_head hc
    have hlt := c.tag_lt
    intro heq
    rw [Option.some.inj heq] at hlt
    exact absurd hlt (by decide)
  · rw [cons_append, head?_cons]
    rcases htag with rfl | rfl | rfl <;> decide

/-- No code begins with the digest marker. -/
theorem canonicalFromRecord_head_ne (h : canonicalFromRecord record paths = some c) :
    c.head? ≠ some digestMarker := by
  cases paths with
  | nil =>
    rw [canonicalFromRecord, Option.some.injEq] at h
    rw [← h]
    decide
  | cons path paths =>
    rw [canonicalFromRecord] at h
    split at h
    case h_2 => simp at h
    case h_1 x xs hx _ =>
      rw [leafCode_eq, Option.bind_eq_some_iff] at hx
      obtain ⟨v, -, hv⟩ := hx
      rw [← Option.some.inj h]
      exact IsCode.head_ne ⟨_, _, hv⟩ xs

theorem canonicalFromValues_head_ne (h : canonicalFromValues values = some c) :
    c.head? ≠ some digestMarker := by
  cases values with
  | nil =>
    rw [canonicalFromValues, Option.some.injEq] at h
    rw [← h]
    decide
  | cons v values =>
    rw [canonicalFromValues] at h
    split at h
    case h_2 => simp at h
    case h_1 x xs hx _ =>
      rw [← Option.some.inj h]
      exact IsCode.head_ne ⟨_, _, hx⟩ xs

/-- Equal identities are equal codes in the inline form, and two digests otherwise. -/
theorem identityBytes_eq {c : Bytes} (hc : c.head? ≠ some digestMarker)
    (hc' : c'.head? ≠ some digestMarker) (h : identityBytes digest c = identityBytes digest c') :
    (c.length ≤ inlineMax ∧ c = c') ∨ (inlineMax < c.length ∧ inlineMax < c'.length) := by
  unfold identityBytes at h
  by_cases hlen : c.length ≤ inlineMax <;> by_cases hlen' : c'.length ≤ inlineMax
  · rw [if_pos hlen, if_pos hlen'] at h
    exact Or.inl ⟨hlen, h⟩
  · rw [if_pos hlen, if_neg hlen'] at h
    exact absurd (by rw [h]; rfl) hc
  · rw [if_neg hlen, if_pos hlen'] at h
    exact absurd (by rw [← h]; rfl) hc'
  · omega

theorem indexKey_drop (name : UInt64) (c : Bytes) :
    (indexKey digest name c).drop 9 = identityBytes digest c := by
  exact drop_left' (by simp)

/-- Long codes are digested. -/
theorem digest_form_iff (hc : c.head? ≠ some digestMarker) :
    ((indexKey digest name c).drop 9).head? = some digestMarker ↔ inlineMax < c.length := by
  rw [indexKey_drop, identityBytes]
  by_cases hlen : c.length ≤ inlineMax
  · rw [if_pos hlen]
    exact ⟨fun h => absurd h hc, fun h => absurd hlen (Nat.not_le.2 h)⟩
  · rw [if_neg hlen]
    exact ⟨fun _ => Nat.lt_of_not_le hlen, fun _ => rfl⟩

/-- A key identifies index and code. -/
theorem indexKey_inj {name name' : UInt64} {c : Bytes}
    (h : indexKey digest name c = indexKey digest name' c') :
    name = name' ∧ identityBytes digest c = identityBytes digest c' := by
  rw [indexKey, indexKey, cons.injEq] at h
  obtain ⟨hname, hidentity⟩ := append_inj h.2 (by simp)
  refine ⟨UInt64.toNat_inj.1 ?_, hidentity⟩
  rw [← LittleEndian.ofBytes_toBytes_of_lt (k := 8) name.toNat_lt, hname,
    LittleEndian.ofBytes_toBytes_of_lt name'.toNat_lt]

/-- What the scan accepts: the probe's key and an id, with the probe's code in the value of a
digest form. -/
theorem scanPosting_eq_some (hc : c.head? ≠ some digestMarker) :
    scanPosting digest name c entry = some id ↔
      entry.1 = indexKey digest name c ++ id.bytes ∧ (inlineMax < c.length → entry.2 = c) := by
  obtain ⟨k, v⟩ := entry
  unfold scanPosting
  dsimp only
  constructor
  · intro h
    split at h
    case isFalse => simp at h
    case isTrue hkey =>
      obtain ⟨⟨u, rfl⟩, hlen⟩ := hkey
      have hid : ∀ {i : RecordId}, i.bytes = (indexKey digest name c ++ u).drop
          (indexKey digest name c).length → i = id → indexKey digest name c ++ u =
            indexKey digest name c ++ id.bytes := by
        rintro i hi rfl
        rw [hi, drop_left]
      split at h
      case isFalse hform =>
        exact ⟨hid rfl (Option.some.inj h),
          fun hlong => absurd ((digest_form_iff digest hc).2 hlong) hform⟩
      case isTrue hform =>
        split at h
        case isFalse => simp at h
        case isTrue hv => exact ⟨hid rfl (Option.some.inj h), fun _ => hv⟩
  · rintro ⟨rfl, hv⟩
    have hdrop : (indexKey digest name c ++ id.bytes).drop (indexKey digest name c).length =
        id.bytes := drop_left
    rw [dif_pos ⟨prefix_append _ _, by rw [hdrop, id.sixteen]⟩]
    have hid : (⟨(indexKey digest name c ++ id.bytes).drop (indexKey digest name c).length,
        by rw [hdrop, id.sixteen]⟩ : RecordId) = id := RecordId.ext_bytes hdrop
    by_cases hlong : inlineMax < c.length
    · rw [if_pos ((digest_form_iff digest hc).2 hlong), if_pos (hv hlong), hid]
    · rw [if_neg (fun h => hlong ((digest_form_iff digest hc).1 h)), hid]

/-- **One posting under a probe**: it is returned exactly if it is of the probe's index and
of a row with the probe's code. -/
theorem scanPosting_posting {row : Row} (hc : c.head? ≠ some digestMarker)
    (hentry : d.posting digest row = some entry) :
    scanPosting digest name c entry = some id ↔
      id = row.1 ∧ name = d.name ∧ canonicalFromRecord row.2 d.paths = some c := by
  obtain ⟨c', hc', rfl⟩ := Option.map_eq_some_iff.1 hentry
  have hhead' := canonicalFromRecord_head_ne hc'
  rw [scanPosting_eq_some digest hc, hc', Option.some.injEq]
  constructor
  · rintro ⟨hkeys, hvalue⟩
    obtain ⟨hkey, hid⟩ := append_inj' hkeys (by rw [row.1.sixteen, id.sixteen])
    obtain ⟨hname, hidentity⟩ := indexKey_inj digest hkey
    refine ⟨RecordId.ext_bytes hid.symm, hname.symm, ?_⟩
    rcases identityBytes_eq digest hhead' hc hidentity with ⟨-, heq⟩ | ⟨hlong', hlong⟩
    · exact heq
    · have hv := hvalue hlong
      rwa [if_neg (Nat.not_le.2 hlong')] at hv
  · rintro ⟨rfl, rfl, rfl⟩
    exact ⟨rfl, fun hlong => if_neg (Nat.not_le.2 hlong)⟩

/-- **The lookup returns the rows with the probe's code**, in the order of the table. -/
theorem lookupByIndex_eq {table : Table} (indexes : HashIndexes digest table)
    (hd : d ∈ indexes.defs) (values : List Value) :
    lookupByIndex digest indexes.store d.name values =
      (table.rows.filter fun row => sameCode row.2 d.paths values).map Prod.fst := by
  unfold lookupByIndex
  cases hvalues : canonicalFromValues values with
  | none =>
    have hnone : ∀ row : Row, sameCode row.2 d.paths values = false := by
      intro row
      rw [← Bool.not_eq_true, sameCode_iff]
      rintro ⟨c, -, hc⟩
      exact absurd (hvalues.symm.trans hc) (by simp)
    simp [hnone]
  | some c =>
    have hhead := canonicalFromValues_head_ne hvalues
    refine @ByteOrder.eq_of_ascending _ RecordId.bytes _ _ ?_ ?_ ?_
    · refine List.Pairwise.filterMap _ ?_ indexes.ascending
      intro entry entry' hlt id hid id' hid'
      rw [((scanPosting_eq_some digest hhead).1 hid).1,
        ((scanPosting_eq_some digest hhead).1 hid').1] at hlt
      exact (ByteOrder.append_lt_append_left _ _ _).1 hlt
    · exact pairwise_map.2 (table.ascending.filter _)
    intro id
    simp only [mem_filterMap, mem_map, mem_filter, sameCode_iff, hvalues, Option.some.injEq]
    constructor
    · rintro ⟨entry, hentry, hscan⟩
      have hregular : entry.1.head? = some regularV2 := by
        rw [((scanPosting_eq_some digest hhead).1 hscan).1]
        rfl
      obtain ⟨d', hd', row, hrow, hpost⟩ := (indexes.exact_postings entry hregular).1 hentry
      obtain ⟨rfl, hname, hcode⟩ := (scanPosting_posting digest hhead hpost).1 hscan
      have hsame : d = d' := inj_on_of_nodup_map indexes.named hd hd' hname
      subst hsame
      exact ⟨row, ⟨hrow, c, hcode, rfl⟩, rfl⟩
    · rintro ⟨row, ⟨hrow, c', hcode, rfl⟩, rfl⟩
      have hpost : d.posting digest row = some (indexKey digest d.name c ++ row.1.bytes,
          if c.length ≤ inlineMax then [] else c) := by rw [IndexDef.posting, hcode, Option.map_some]
      refine ⟨_, (indexes.exact_postings _ rfl).2 ⟨d, hd, row, hrow, hpost⟩, ?_⟩
      exact (scanPosting_posting digest hhead hpost).2 ⟨rfl, rfl, hcode⟩

end

end ShamirDb.Query
