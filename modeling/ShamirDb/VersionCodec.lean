/-
# Physical keys of the version log

The log stores the row of a key at a version under one physical key: the key, a separator
byte, the version as eight big-endian bytes.  A table of versioned rows is what such a log
amounts to: physical keys decode to what they were encoded from, a key's versions are in
byte order, and the range scan of `scan_history_newest` over the physical log, which may
meet rows of other keys, finds the newest row of the table.
-/
import ShamirDb.LittleEndian
import ShamirDb.VersionedRows
import ShamirDb.WalEntry
import Mathlib.Data.List.Induction
import Mathlib.Data.List.Lex

namespace ShamirDb.VersionCodec

open List

/-! ## Big-endian words -/

/-- The `k` low bytes of `n`, most significant first (`put_u64` for `k = 8`). -/
def bigEndian (k n : Nat) : Bytes := (LittleEndian.toBytes k n).reverse

@[simp] theorem length_bigEndian (k n : Nat) : (bigEndian k n).length = k := by
  simp [bigEndian]

theorem bigEndian_succ (k n : Nat) :
    bigEndian (k + 1) n = bigEndian k (n / 256) ++ [UInt8.ofNat n] := by
  simp [bigEndian, LittleEndian.toBytes]

/-- What follows does not matter once two words of one length differ. -/
theorem append_lt_append {a b : Bytes} (h : a < b) (hlen : a.length = b.length) (x y : Bytes) :
    a ++ x < b ++ y := by
  induction a generalizing b with
  | nil =>
    obtain rfl : b = [] := eq_nil_of_length_eq_zero hlen.symm
    exact absurd h (List.lt_irrefl _)
  | cons c a ih =>
    cases b with
    | nil => simp at hlen
    | cons d b =>
      rw [cons_append, cons_append, cons_lt_cons_iff]
      rcases cons_lt_cons_iff.1 h with hcd | ⟨hcd, hab⟩
      · exact .inl hcd
      · exact .inr ⟨hcd, ih hab (by simpa using hlen)⟩

variable {k : Nat}

/-- Byte order is the order of the numbers. -/
theorem bigEndian_lt {m n : Nat} (h : m < n) (hn : n < 256 ^ k) :
    bigEndian k m < bigEndian k n := by
  induction k generalizing m n with
  | zero => exact absurd hn (by omega)
  | succ k ih =>
    rw [bigEndian_succ, bigEndian_succ]
    have hn' : n / 256 < 256 ^ k := by
      omega
    rcases Nat.lt_or_ge (m / 256) (n / 256) with hlt | hge
    · exact append_lt_append (ih hlt hn') (by simp) _ _
    · have heq : m / 256 = n / 256 := by omega
      rw [heq]
      refine append_left_lt (cons_lt_cons_iff.2 (.inl ?_))
      rw [UInt8.lt_iff_toNat_lt, UInt8.toNat_ofNat', UInt8.toNat_ofNat']
      omega

/-- A number that fits is identified by its bytes. -/
theorem bigEndian_inj {m n : Nat} (hm : m < 256 ^ k) (hn : n < 256 ^ k)
    (h : bigEndian k m = bigEndian k n) : m = n := by
  rw [bigEndian, bigEndian, reverse_inj] at h
  rw [← LittleEndian.ofBytes_toBytes_of_lt hm, h, LittleEndian.ofBytes_toBytes_of_lt hn]

/-! ## Keys with a version -/

/-- `VERSION_SEP`. -/
def versionSep : UInt8 := 0xFF

/-- `encode_version_key`. -/
def encodeVersionKey (key : Bytes) (version : Nat) : Bytes :=
  key ++ versionSep :: bigEndian 8 version

/-- `decode_version_key`: the last nine bytes are the separator and the version. -/
def decodeVersionKey (physical : Bytes) : Option (Bytes × Nat) :=
  if physical.length < 9 then none
  else
    let split := physical.length - 9
    match physical.drop split with
    | sep :: version =>
      if sep = versionSep then
        some (physical.take split, LittleEndian.ofBytes version.reverse)
      else none
    | [] => none

variable {v : Nat}

/-- **Round trip**, for versions of 64 bits. -/
theorem decodeVersionKey_encode (key : Bytes) (hv : v < 2 ^ 64) :
    decodeVersionKey (encodeVersionKey key v) = some (key, v) := by
  have hversion : LittleEndian.ofBytes (bigEndian 8 v).reverse = v := by
    rw [bigEndian, reverse_reverse, LittleEndian.ofBytes_toBytes_of_lt (by simpa using hv)]
  unfold decodeVersionKey
  simp [encodeVersionKey, hversion]

/-- The bytes of a number that was read from eight of them. -/
theorem bigEndian_ofBytes {bs : Bytes} (h : bs.length = k) :
    bigEndian k (LittleEndian.ofBytes bs.reverse) = bs := by
  subst h
  rw [bigEndian, ← length_reverse, LittleEndian.toBytes_ofBytes, reverse_reverse]

/-- What decodes was encoded. -/
theorem encode_of_decodeVersionKey {physical key : Bytes}
    (h : decodeVersionKey physical = some (key, v)) :
    physical = encodeVersionKey key v ∧ v < 2 ^ 64 := by
  unfold decodeVersionKey at h
  split at h
  · cases h
  have hdrop : (physical.drop (physical.length - 9)).length = 9 := by
    rw [length_drop]
    omega
  dsimp only at h
  split at h
  · rename_i sep version hsplit
    split at h
    · rename_i hsep
      obtain ⟨rfl, rfl⟩ := h
      rw [hsplit, length_cons] at hdrop
      have hversion : version.length = 8 := by omega
      constructor
      · rw [encodeVersionKey, bigEndian_ofBytes hversion, ← hsep, ← hsplit, take_append_drop]
      · have := LittleEndian.ofBytes_lt version.reverse
        rw [length_reverse, hversion] at this
        exact this
    · cases h
  · cases h

/-- **The decoder accepts exactly the encodings**, whatever bytes the key has. -/
theorem decodeVersionKey_eq_some (physical key : Bytes) (v : UInt64) :
    decodeVersionKey physical = some (key, v.toNat) ↔ physical = encodeVersionKey key v.toNat := by
  refine ⟨fun h => (encode_of_decodeVersionKey h).1, ?_⟩
  rintro rfl
  exact decodeVersionKey_encode key v.toNat_lt

theorem encodeVersionKey_lt (key : Bytes) {w : Nat} (h : v < w) (hw : w < 2 ^ 64) :
    encodeVersionKey key v < encodeVersionKey key w := by
  refine append_left_lt (cons_lt_cons_iff.2 (.inr ⟨rfl, ?_⟩))
  exact bigEndian_lt h hw

/-- The keys of a row are in the order of its versions. -/
theorem encodeVersionKey_le (key : Bytes) {w : Nat} (hv : v < 2 ^ 64) (hw : w < 2 ^ 64) :
    encodeVersionKey key v ≤ encodeVersionKey key w ↔ v ≤ w := by
  constructor
  · intro h
    by_contra hlt
    exact h (encodeVersionKey_lt key (Nat.not_le.1 hlt) hv)
  · intro h hlt
    rcases Nat.lt_or_eq_of_le h with hlt' | rfl
    · exact List.lt_asymm hlt (encodeVersionKey_lt key hlt' hw)
    · exact List.lt_irrefl _ hlt

/-! ## The physical log -/

/-- A key-value store in byte order of its keys. -/
structure PhysicalLog where
  entries : List (Bytes × Bytes)
  sorted : entries.Pairwise fun a b => a.1 < b.1

namespace PhysicalLog

/-- `get`. -/
def get (log : PhysicalLog) (physical : Bytes) : Option Bytes := log.entries.lookup physical

/-- The table of versioned rows the log stands for. -/
def table (log : PhysicalLog) : VersionedRows Bytes Bytes :=
  fun key v => log.get (encodeVersionKey key v)

variable {entries : List (Bytes × Bytes)}

theorem lookup_eq_some (h : entries.Pairwise fun a b => a.1 < b.1) {p x : Bytes} :
    entries.lookup p = some x ↔ (p, x) ∈ entries := by
  rw [lookup_eq_some_iff, mem_iff_append]
  constructor
  · rintro ⟨front, back, heq, -⟩
    exact ⟨front, back, heq⟩
  · rintro ⟨front, back, rfl⟩
    refine ⟨front, back, rfl, fun q hq => ?_⟩
    have hlt : q.1 < p := (pairwise_append.1 h).2.2 q hq _ mem_cons_self
    rw [bne_iff_ne]
    rintro rfl
    exact List.lt_irrefl _ hlt

/-- What one entry contributes to the scan of `key` up to version `n`. -/
def scanEntry (key : Bytes) (n : Nat) (e : Bytes × Bytes) : Option (Nat × Bytes) :=
  if encodeVersionKey key 0 ≤ e.1 ∧ e.1 ≤ encodeVersionKey key n then
    match decodeVersionKey e.1 with
    | some (orig, v) => if orig = key then some (v, e.2) else none
    | none => none
  else none

/-- `scan_history_newest`: the range of the key's versions up to `n`, entry by entry; the
last one that belongs to the key stays. -/
def scanHistoryNewest (log : PhysicalLog) (key : Bytes) (n : Nat) : Option (Nat × Bytes) :=
  log.entries.foldl (fun latest e => (scanEntry key n e).or latest) none

variable {n : Nat}

/-- An entry of the row, not above the version. -/
theorem scanEntry_eq_some {key : Bytes} {v : Nat} {e : Bytes × Bytes} {x : Bytes}
    (hn : n < 2 ^ 64) :
    scanEntry key n e = some (v, x) ↔ e = (encodeVersionKey key v, x) ∧ v ≤ n := by
  unfold scanEntry
  constructor
  · intro h
    split at h
    · rename_i hrange
      split at h
      · rename_i orig w hdecode
        split at h
        · rename_i horig
          subst horig
          obtain ⟨rfl, rfl⟩ := h
          obtain ⟨hencode, hw⟩ := encode_of_decodeVersionKey hdecode
          refine ⟨Prod.ext hencode rfl, ?_⟩
          rw [hencode] at hrange
          exact (encodeVersionKey_le orig hw hn).1 hrange.2
        · cases h
      · cases h
    · cases h
  · rintro ⟨rfl, hv⟩
    have hv' : v < 2 ^ 64 := by omega
    rw [if_pos ⟨(encodeVersionKey_le key (by omega) hv').2 (Nat.zero_le v),
      (encodeVersionKey_le key hv' hn).2 hv⟩, decodeVersionKey_encode key hv']
    simp

/-- The scan ends with the newest entry. -/
theorem foldl_scanEntry {key : Bytes} {v : Nat} {x : Bytes} (hn : n < 2 ^ 64)
    (h : entries.Pairwise fun a b => a.1 < b.1) :
    entries.foldl (fun latest e => (scanEntry key n e).or latest) none = some (v, x) ↔
      v ≤ n ∧ (encodeVersionKey key v, x) ∈ entries ∧
        ∀ w, v < w → w ≤ n → ∀ y, (encodeVersionKey key w, y) ∉ entries := by
  -- the keys ascend, so the newest version is the last one that belongs to the key
  induction entries using reverseRecOn with
  | nil => simp
  | append_singleton rest e ih =>
    rw [pairwise_append] at h
    have hlast : ∀ p ∈ rest, p.1 < e.1 := fun p hp => h.2.2 p hp e mem_cons_self
    have hself : ∀ w y, w ≤ n → (encodeVersionKey key w, y) ∈ [e] →
        scanEntry key n e = some (w, y) :=
      fun w y hw he => (scanEntry_eq_some hn).2 ⟨(mem_singleton.1 he).symm, hw⟩
    rw [foldl_append, foldl_cons, foldl_nil]
    rcases hscan : scanEntry key n e with _ | ⟨u, z⟩
    · have hother : ∀ w y, w ≤ n → ((encodeVersionKey key w, y) ∈ rest ↔
          (encodeVersionKey key w, y) ∈ rest ++ [e]) := by
        intro w y hw
        rw [mem_append, or_iff_left]
        intro he
        rw [hself w y hw he] at hscan
        cases hscan
      rw [Option.none_or, ih h.1]
      exact and_congr_right fun hv => and_congr (hother v x hv) <|
        forall₃_congr fun w _ hw => forall_congr' fun y => not_congr (hother w y hw)
    · obtain ⟨he, hu⟩ := (scanEntry_eq_some hn).1 hscan
      have hmemu : (encodeVersionKey key u, z) ∈ rest ++ [e] := by simp [he]
      rw [he] at hlast
      rw [Option.some_or]
      constructor
      · rintro ⟨⟩
        refine ⟨hu, hmemu, fun w hw hwn y hmem => ?_⟩
        rcases mem_append.1 hmem with hmem | hmem
        · exact List.lt_asymm (hlast _ hmem) (encodeVersionKey_lt key hw (by omega))
        · rw [hself w y hwn hmem] at hscan
          cases hscan
          exact Nat.lt_irrefl _ hw
      · rintro ⟨hv, hmem, hnewer⟩
        rcases mem_append.1 hmem with hmem | hmem
        · have hle := mt (hnewer u · hu z) (not_not.2 hmemu)
          exact absurd (hlast _ hmem)
            (List.not_lt.2 ((encodeVersionKey_le key (by omega) (by omega)).2 (Nat.not_lt.1 hle)))
        · exact hscan.symm.trans (hself v x hv hmem)

/-- **The scan finds the newest row** of the table, whatever other keys lie in its range. -/
theorem scanHistoryNewest_eq (log : PhysicalLog) (key : Bytes) (hn : n < 2 ^ 64) :
    log.scanHistoryNewest key n = VersionedRows.newest (log.table key) n := by
  have htable : ∀ v x, log.table key v = some x ↔ (encodeVersionKey key v, x) ∈ log.entries :=
    fun v x => lookup_eq_some log.sorted
  refine Option.ext fun ⟨v, x⟩ => (foldl_scanEntry hn log.sorted).trans ?_
  simp only [VersionedRows.newest_eq_some, Option.eq_none_iff_forall_ne_some, ne_eq, htable]

end PhysicalLog

end ShamirDb.VersionCodec
