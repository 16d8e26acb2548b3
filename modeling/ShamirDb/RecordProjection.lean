/-
# Projection of a stored record

A stored record is a msgpack map from interned ids to values.  `record_view_to_id_msgpack`
copies the entries of the requested ids into a new map: the index of the record finds the bytes
of a value with the skip walker, the header counts the requested ids that are present, and the
value bytes are copied as they are.  An id that is requested twice is counted and written twice.

A reader of the source moves a position over the buffer; here it takes what it reads off the
front of the bytes that are left.  Positions and lengths stay below `2 ^ 64`, so no
`checked_add` fails.
-/
import ShamirDb.SelfDelimiting
import ShamirDb.VersionCodec
import Mathlib.Data.List.Nodup
import Mathlib.Data.List.Perm.Subperm
import Mathlib.Tactic.IntervalCases

namespace ShamirDb.Projection

open List SelfDelimiting

abbrev Cursor := Reader UInt8

/-! ## The cursor -/

def readU8 : Cursor UInt8 := next

def readBe (n : Nat) : Cursor Nat := do
  let bytes ← SelfDelimiting.take n
  pure (LittleEndian.ofBytes bytes.reverse)

def readMapLen : Cursor Nat := do
  let m ← readU8
  if 0x80 ≤ m ∧ m ≤ 0x8f then pure (m &&& 0x0f).toNat
  else if m = 0xde then readBe 2
  else if m = 0xdf then readBe 4
  else failure

def readBinLen : Cursor Nat := do
  let m ← readU8
  if m = 0xc4 then readBe 1
  else if m = 0xc5 then readBe 2
  else if m = 0xc6 then readBe 4
  else failure

/-- `*pos += n`, with the bounds check that follows every arm of the walker. -/
def advance (n : Nat) : Cursor Unit := do
  let _ ← SelfDelimiting.take n
  pure ()

def maxMsgpackDepth : Nat := 128

/-- The walker over one value; the argument counts the nesting levels that are left. -/
def skipValue : Nat → Cursor Unit
  | 0 => failure
  | levels + 1 =>
    let skipSeq (n : Nat) : Cursor Unit := do
      let _ ← many (skipValue levels) n
      pure ()
    let skipMap (n : Nat) : Cursor Unit := do
      let _ ← many (do skipValue levels; skipValue levels) n
      pure ()
    do
      let m ← readU8
      match m with
      | 0xc0 | 0xc2 | 0xc3 => pure ()
      | 0xc1 => failure
      | 0xcc | 0xd0 => advance 1
      | 0xcd | 0xd1 => advance 2
      | 0xce | 0xd2 | 0xca => advance 4
      | 0xcf | 0xd3 | 0xcb => advance 8
      | 0xd9 | 0xc4 => readBe 1 >>= advance
      | 0xda | 0xc5 => readBe 2 >>= advance
      | 0xdb | 0xc6 => readBe 4 >>= advance
      | 0xdc => readBe 2 >>= skipSeq
      | 0xdd => readBe 4 >>= skipSeq
      | 0xde => readBe 2 >>= skipMap
      | 0xdf => readBe 4 >>= skipMap
      | 0xd4 => advance (1 + 1)
      | 0xd5 => advance (1 + 2)
      | 0xd6 => advance (1 + 4)
      | 0xd7 => advance (1 + 8)
      | 0xd8 => advance (1 + 16)
      | 0xc7 => readBe 1 >>= fun n => advance (1 + n)
      | 0xc8 => readBe 2 >>= fun n => advance (1 + n)
      | 0xc9 => readBe 4 >>= fun n => advance (1 + n)
      | m =>
        if m ≤ 0x7f ∨ 0xe0 ≤ m then pure ()
        else if 0xa0 ≤ m then advance (m &&& 0x1f).toNat
        else if 0x90 ≤ m then skipSeq (m &&& 0x0f).toNat
        else skipMap (m &&& 0x0f).toNat

/-! ## The index of a record -/

structure RecordView where
  body : Bytes
  nEntries : Nat

def RecordView.new (buf : Bytes) : Option RecordView :=
  (readMapLen buf).map fun p => ⟨p.2, p.1⟩

/-- One entry: the id its key stands for and the bytes of its value. -/
def readEntry : Cursor (UInt64 × Bytes) := do
  let klen ← readBinLen
  let keyBytes ← SelfDelimiting.take klen
  if klen = 1 ∨ klen = 2 ∨ klen = 4 ∨ klen = 8 then
    let value ← SelfDelimiting.span (skipValue (maxMsgpackDepth + 1))
    pure (UInt64.ofNat (LittleEndian.ofBytes keyBytes), value)
  else failure

/-- The loop of `index`, from the map of the entries before; it ends at a malformed entry. -/
def indexLoop : Nat → Bytes → (UInt64 → Option Bytes) → UInt64 → Option Bytes
  | 0, _, map => map
  | n + 1, body, map =>
    match readEntry body with
    | none => map
    | some ((id, value), rest) => indexLoop n rest (Function.update map id (some value))

/-- The bytes of the value of each id, by `FieldIndex::value_bytes`. -/
def RecordView.index (view : RecordView) : UInt64 → Option Bytes :=
  indexLoop view.nEntries view.body fun _ => none

/-! ## The projection -/

inductive CodecError where
  | encode (message : String)
deriving DecidableEq

def wireLen (id : UInt64) : Nat :=
  if id.toNat < 2 ^ 8 then 1
  else if id.toNat < 2 ^ 16 then 2
  else if id.toNat < 2 ^ 32 then 4
  else 8

def encodeKey (id : UInt64) : Bytes :=
  0xc4 :: UInt8.ofNat (wireLen id) :: LittleEndian.toBytes (wireLen id) id.toNat

def writeMapHeader (total : Nat) : Except CodecError Bytes :=
  if total ≤ 15 then .ok [0x80 ||| UInt8.ofNat total]
  else if total ≤ 65535 then .ok (0xde :: VersionCodec.bigEndian 2 total)
  else if total < 2 ^ 32 then .ok (0xdf :: VersionCodec.bigEndian 4 total)
  else .error (.encode s!"merge_storage_bytes: map entry count {total} exceeds Map32 limit")

/-- The requested entries that are present, in the order of the request. -/
def presentPairs (view : RecordView) (selectedIds : List UInt64) : List (UInt64 × Bytes) :=
  selectedIds.filterMap fun id => (view.index id).map fun value => (id, value)

def recordViewToIdMsgpack (view : RecordView) (selectedIds : List UInt64) :
    Except CodecError Bytes := do
  let pairs := presentPairs view selectedIds
  let header ← writeMapHeader pairs.length
  pure (header ++ pairs.flatMap fun p => encodeKey p.1 ++ p.2)

/-! ## Well-formed maps -/

/-- The entries of a map, when those its header counts fill the buffer. -/
def decodeMap (buf : Bytes) : Option (List (UInt64 × Bytes)) := do
  let view ← RecordView.new buf
  match many readEntry view.nEntries view.body with
  | some (fields, []) => some fields
  | _ => none

/-- The bytes of a well-formed map with one entry for a field. -/
structure StoredRecord where
  bytes : Bytes
  fields : List (UInt64 × Bytes)
  decodes : decodeMap bytes = some fields
  distinct : (fields.map Prod.fst).Nodup

variable {buf input rest value : Bytes} {k n : Nat} {id : UInt64} {view : RecordView}
  {fields : List (UInt64 × Bytes)}

/-- When a record is decoded. -/
theorem decodeMap_eq_some : decodeMap buf = some fields ↔
    ∃ view, RecordView.new buf = some view ∧
      many readEntry view.nEntries view.body = some (fields, []) := by
  unfold decodeMap
  rw [Option.bind_eq_bind, Option.bind_eq_some_iff]
  refine exists_congr fun view => and_congr_right fun _ => ?_
  split <;> simp_all

/-! ## The walker -/

/-- Numbers of a fixed width delimit themselves. -/
theorem delimits_readBe (n : Nat) : Delimits (readBe n) :=
  (Delimits.take n).bind fun _ => .pure _

/-- So does a skip of `n` bytes. -/
theorem delimits_advance (n : Nat) : Delimits (advance n) :=
  (Delimits.take n).bind fun _ => .pure _

/-- So does the skip of a value, at every depth. -/
theorem delimits_skipValue (levels : Nat) : Delimits (skipValue levels) := by
  induction levels with
  | zero => exact .failure
  | succ levels ih =>
    have hseq (n : Nat) : Delimits (do let _ ← many (skipValue levels) n; pure ()) :=
      (ih.many n).bind fun _ => .pure ()
    have hmap (n : Nat) :
        Delimits (do let _ ← many (do skipValue levels; skipValue levels) n; pure ()) :=
      ((ih.bind fun _ => ih).many n).bind fun _ => .pure ()
    -- every arm is one of these, after the length it reads
    refine Delimits.next.bind fun m => ?_
    split
    all_goals first
      | exact .pure ()
      | exact .failure
      | exact delimits_advance _
      | exact (delimits_readBe _).bind fun n => delimits_advance _
      | exact (delimits_readBe _).bind hseq
      | exact (delimits_readBe _).bind hmap
      | split_ifs
        · exact .pure ()
        · exact delimits_advance _
        · exact hseq _
        · exact hmap _

/-! ## Reading what was written -/

/-- A number that fits is read back. -/
theorem reads_readBe (h : n < 256 ^ k) : Reads (readBe k) (VersionCodec.bigEndian k n) n := by
  have hread := (Reads.take (VersionCodec.length_bigEndian k n)).bind_pure fun bytes =>
    LittleEndian.ofBytes bytes.reverse
  rwa [VersionCodec.bigEndian, reverse_reverse, LittleEndian.ofBytes_toBytes_of_lt h] at hread

/-- What is read fits. -/
theorem readBe_lt (h : readBe k input = some (n, rest)) : n < 256 ^ k := by
  obtain ⟨bytes, mid, htake, h⟩ := bind_eq_some.1 h
  cases h
  simpa [(take_eq_some htake).1] using LittleEndian.ofBytes_lt bytes.reverse

/-- The length in a map header fits 32 bits. -/
theorem readMapLen_lt (h : readMapLen input = some (n, rest)) : n < 2 ^ 32 := by
  obtain ⟨m, mid, -, h⟩ := bind_eq_some.1 h
  split_ifs at h
  · cases h
    exact (UInt8.toNat_lt _).trans (by decide)
  · exact (readBe_lt h).trans (by decide)
  · exact readBe_lt h
  · cases h

/-- A map header is read back. -/
theorem reads_writeMapHeader (h : n < 2 ^ 32) :
    ∃ header, writeMapHeader n = .ok header ∧ Reads readMapLen header n := by
  unfold writeMapHeader
  split_ifs with h15 h16
  · refine ⟨_, rfl, fun tail => ?_⟩
    interval_cases n <;> rfl
  · exact ⟨_, rfl, (Reads.next _).bind (reads_readBe (by omega))⟩
  · exact ⟨_, rfl, (Reads.next _).bind (reads_readBe h)⟩

/-- An id and its value are read back. -/
theorem reads_entry (h : Reads (skipValue (maxMsgpackDepth + 1)) value ()) :
    Reads readEntry (encodeKey id ++ value) (id, value) := by
  have hid := id.toNat_lt
  obtain ⟨hwidth, hfits⟩ : (wireLen id = 1 ∨ wireLen id = 2 ∨ wireLen id = 4 ∨ wireLen id = 8) ∧
      id.toNat < 256 ^ wireLen id := by
    unfold wireLen
    split_ifs <;> simp <;> omega
  have hlen : Reads readBinLen [0xc4, UInt8.ofNat (wireLen id)] (wireLen id) := by
    intro tail
    rcases hwidth with hw | hw | hw | hw <;> rw [hw] <;> rfl
  refine hlen.bind ((Reads.take (LittleEndian.length_toBytes ..)).bind ?_)
  have hread := h.span.bind_pure fun value => (id, value)
  rwa [if_pos hwidth, LittleEndian.ofBytes_toBytes_of_lt hfits, UInt64.ofNat_toNat]

/-! ## The index holds the entries -/

/-- The value of an entry that was read is a skippable word. -/
theorem readEntry_value (h : readEntry input = some ((id, value), rest)) :
    Reads (skipValue (maxMsgpackDepth + 1)) value () := by
  obtain ⟨klen, mid, -, h⟩ := bind_eq_some.1 h
  obtain ⟨keyBytes, mid', -, h⟩ := bind_eq_some.1 h
  split_ifs at h
  · obtain ⟨value', mid'', hspan, h⟩ := bind_eq_some.1 h
    cases h
    exact ((delimits_skipValue _).reads_of_span hspan).choose_spec
  · cases h

/-- The index of a record without repeated ids has each field. -/
theorem indexLoop_spec (h : many readEntry n input = some (fields, rest))
    (hnodup : (fields.map Prod.fst).Nodup) (map : UInt64 → Option Bytes) :
    (∀ p ∈ fields, Reads (skipValue (maxMsgpackDepth + 1)) p.2 ()) ∧ fields.length = n ∧
      ∀ id value, indexLoop n input map id = some value ↔
        (id, value) ∈ fields ∨ id ∉ fields.map Prod.fst ∧ map id = some value := by
  induction n generalizing input fields map with
  | zero =>
    cases h
    simp [indexLoop]
  | succ n ih =>
    obtain ⟨⟨id₀, value₀⟩, mid, fields', hfirst, hmany, rfl⟩ := many_succ_eq_some h
    rw [map_cons, nodup_cons] at hnodup
    obtain ⟨hvalues, hlen, hmem⟩ := ih hmany hnodup.2 (Function.update map id₀ (some value₀))
    refine ⟨forall_mem_cons.2 ⟨readEntry_value hfirst, hvalues⟩, by simp [hlen], ?_⟩
    intro id value
    simp only [indexLoop, hfirst, hmem, map_cons, mem_cons]
    by_cases hid : id = id₀
    · subst hid
      have hnot : (id, value) ∉ fields' := fun hin => hnodup.1 (mem_map.2 ⟨_, hin, rfl⟩)
      simp [hnot, hnodup.1, eq_comm]
    · simp [hid]

/-! ## What the projection holds -/

/-- The ids of the present pairs are the requested ids that the record has. -/
theorem map_fst_presentPairs (view : RecordView) (selectedIds : List UInt64) :
    (presentPairs view selectedIds).map Prod.fst =
      selectedIds.filter fun id => (view.index id).isSome := by
  induction selectedIds with
  | nil => rfl
  | cons id ids ih =>
    rw [presentPairs, filterMap_cons, filter_cons]
    cases view.index id with
    | none => exact ih
    | some value => exact congrArg (id :: ·) ih

/-- A header that is written holds a length of 32 bits. -/
theorem writeMapHeader_lt {header : Bytes} (h : writeMapHeader n = .ok header) : n < 2 ^ 32 := by
  unfold writeMapHeader at h
  split_ifs at h with h15 h16 h32
  · omega
  · omega
  · exact h32

/-- What is written is read back, repeated entries too. -/
theorem decodeMap_recordViewToIdMsgpack {selectedIds : List UInt64} {out : Bytes}
    (hvalues : ∀ p ∈ presentPairs view selectedIds,
      Reads (skipValue (maxMsgpackDepth + 1)) p.2 ())
    (h : recordViewToIdMsgpack view selectedIds = .ok out) :
    decodeMap out = some (presentPairs view selectedIds) := by
  simp only [recordViewToIdMsgpack] at h
  generalize presentPairs view selectedIds = pairs at *
  cases hheader : writeMapHeader pairs.length with
  | error _ => simp [hheader] at h
  | ok header =>
    obtain ⟨header', hheader', hread⟩ := reads_writeMapHeader (writeMapHeader_lt hheader)
    rw [hheader] at h hheader'
    cases hheader'
    cases h
    have hpairs : ∀ p ∈ pairs, Reads readEntry (encodeKey p.1 ++ p.2) p :=
      fun p hp => reads_entry (hvalues p hp)
    refine decodeMap_eq_some.2 ⟨_, Option.map_eq_some_iff.2 ⟨_, hread _, rfl⟩, ?_⟩
    simpa using Reads.many hpairs []

/-- **Projection.**  The output is a well-formed map with distinct keys that holds exactly the
requested entries of the record, each of them copied as it is stored, if and only if no id that
the record has is requested twice. -/
theorem projection_restricts_record (record : StoredRecord) (selectedIds : List UInt64) :
    (∃ view out projected, RecordView.new record.bytes = some view ∧
      recordViewToIdMsgpack view selectedIds = .ok out ∧ decodeMap out = some projected ∧
      (projected.map Prod.fst).Nodup ∧
      ∀ id value, (id, value) ∈ projected ↔ id ∈ selectedIds ∧ (id, value) ∈ record.fields) ↔
    (selectedIds.filter (· ∈ record.fields.map Prod.fst)).Nodup := by
  obtain ⟨view, hview, hfields⟩ := decodeMap_eq_some.1 record.decodes
  obtain ⟨hvalues, hlen, hindex⟩ := indexLoop_spec hfields record.distinct fun _ => none
  have hmem : ∀ id value, (id, value) ∈ presentPairs view selectedIds ↔
      id ∈ selectedIds ∧ (id, value) ∈ record.fields := by
    simp [presentPairs, RecordView.index, hindex]
  have hdecode : ∀ out, recordViewToIdMsgpack view selectedIds = .ok out →
      decodeMap out = some (presentPairs view selectedIds) := fun out =>
    decodeMap_recordViewToIdMsgpack fun p hp => hvalues p ((hmem p.1 p.2).1 hp).2
  have hkeys : (presentPairs view selectedIds).map Prod.fst =
      selectedIds.filter (· ∈ record.fields.map Prod.fst) := by
    rw [map_fst_presentPairs]
    refine filter_congr fun id _ => ?_
    rw [Bool.eq_iff_iff, Option.isSome_iff_exists]
    simp [RecordView.index, hindex]
  rw [← hkeys]
  constructor
  · rintro ⟨view', out, projected, hview', hout, hprojected, hnodup, -⟩
    cases hview.symm.trans hview'
    cases (hdecode out hout).symm.trans hprojected
    exact hnodup
  · intro hnodup
    -- the header can count the present ids: the stored one counts the fields
    have hcount : (presentPairs view selectedIds).length < 2 ^ 32 := by
      have hsub : (presentPairs view selectedIds).map Prod.fst ⊆ record.fields.map Prod.fst :=
        map_subset _ fun p hp => ((hmem p.1 p.2).1 hp).2
      have hle := (subperm_of_subset hnodup hsub).length_le
      rw [length_map, length_map, hlen] at hle
      obtain ⟨_, hread, rfl⟩ := Option.map_eq_some_iff.1 hview
      exact hle.trans_lt (readMapLen_lt hread)
    obtain ⟨header, hheader, -⟩ := reads_writeMapHeader hcount
    have hout : ∃ out, recordViewToIdMsgpack view selectedIds = .ok out := by
      rw [recordViewToIdMsgpack, hheader]
      exact ⟨_, rfl⟩
    obtain ⟨out, hout⟩ := hout
    exact ⟨view, out, _, hview, hout, hdecode out hout, hnodup, hmem⟩

/-- A record with three fields: `1` is nil, `2` the text `a` and `300` the list `[1, 2]`. -/
def threeFields : StoredRecord where
  bytes := [0x83, 0xc4, 1, 1, 0xc0, 0xc4, 1, 2, 0xa1, 0x61, 0xc4, 2, 0x2c, 1, 0x92, 1, 2]
  fields := [(1, [0xc0]), (2, [0xa1, 0x61]), (300, [0x92, 1, 2])]
  decodes := by decide
  distinct := by decide

/-- Two fields in another order, and an id the record does not have, twice. -/
theorem projection_restricts_record_three :
    ∃ view out projected, RecordView.new threeFields.bytes = some view ∧
      recordViewToIdMsgpack view [300, 9, 9, 1] = .ok out ∧ decodeMap out = some projected ∧
      (projected.map Prod.fst).Nodup ∧
      ∀ id value, (id, value) ∈ projected ↔
        id ∈ [(300 : UInt64), 9, 9, 1] ∧ (id, value) ∈ threeFields.fields :=
  (projection_restricts_record threeFields [300, 9, 9, 1]).2 (by decide)

/-- An id that is requested twice is a key of the output twice. -/
theorem repeated_id_written_twice :
    ∃ view out projected, RecordView.new threeFields.bytes = some view ∧
      recordViewToIdMsgpack view [1, 1] = .ok out ∧
      out = [0x82, 0xc4, 1, 1, 0xc0, 0xc4, 1, 1, 0xc0] ∧ decodeMap out = some projected ∧
      ¬ (projected.map Prod.fst).Nodup :=
  ⟨_, _, [(1, [0xc0]), (1, [0xc0])], rfl, rfl, by decide, by decide, by decide⟩

end ShamirDb.Projection
