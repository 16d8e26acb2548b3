/-
# Timelines of many keys

`history_of` reads the timeline of one key: the rows of the log from its first physical key on,
then the rows of the overlay, in order of version and each version once.  `history_of_many`
sorts the keys, reads one range of the log for every 64 of them and sorts what it meets by key.
The range of a group holds rows of other keys, of this group and of none, and still each key
gets its own rows.  Both read the timestamps the same way, 64 at a time and one by one after an
error.
-/
import ShamirDb.VersionCodec
import Mathlib.Data.List.Dedup
import Mathlib.Data.List.Sort

namespace ShamirDb.HistoryMany

open VersionCodec List

/-! ## The calls -/

/-- `VersionEntry`: a version of a key as `history_of` reports it. -/
structure VersionEntry where
  version : Nat
  value : Bytes
  tsMillis : Option Nat
  deriving DecidableEq

/-- What the calls read: the log, `overlay.versions_of` and `pending_ts`. -/
structure Sources where
  history : PhysicalLog
  overlay : Bytes → List (Nat × Bytes)
  pendingTs : Nat → Option Nat

/-- Which reads of the log fail. -/
structure Faults where
  /-- A range scan of `history_of_many`. -/
  group : Bool
  /-- The range scan of `history_of` for one key. -/
  scan : Bytes → Bool
  /-- A `get_many` of timestamps. -/
  many : List Nat → Bool
  /-- The `get` of one timestamp. -/
  single : Nat → Bool

/-- Only the reads fail that the calls repeat in another way. -/
def Faults.repeated (faults : Faults) : Faults :=
  { faults with scan := fun _ => false, single := fun _ => false }

/-- `ts_key`. -/
def tsKey (v : Nat) : Bytes := 0 :: bigEndian 8 v

/-- `decode_version_key`, for the rows of one key. -/
def rowOf (key : Bytes) (e : Bytes × Bytes) : Option (Nat × Bytes) :=
  match decodeVersionKey e.1 with
  | some (orig, v) => if orig = key then some (v, e.2) else none
  | none => none

/-- `iter_range_stream`, both ends included. -/
def iterRange (log : PhysicalLog) (lo : Bytes) (hi : Option Bytes) : List (Bytes × Bytes) :=
  log.entries.filter fun e => decide (lo ≤ e.1) && hi.all fun hi => decide (e.1 ≤ hi)

/-- `slice::chunks` of `n + 1`. -/
def chunks {α : Type} (n : Nat) : List α → List (List α)
  | [] => []
  | x :: rest => (x :: rest.take n) :: chunks n (rest.drop n)
  termination_by xs => xs.length

/-- `dedup_by_key` by version: of neighbours with one version the first stays. -/
def dedupVersions : List (Nat × Bytes) → List (Nat × Bytes)
  | [] => []
  | row :: rest =>
    match dedupVersions rest with
    | [] => [row]
    | next :: rest => if next.1 = row.1 then row :: rest else row :: next :: rest

/-- The versions of both sources in order, each once. -/
def mergeVersions (rows overlayRows : List (Nat × Bytes)) : List (Nat × Bytes) :=
  dedupVersions ((rows ++ overlayRows).insertionSort fun a b => a.1 ≤ b.1)

/-- The rows with the timestamps that were read. -/
def withStamps (stamps : List (Nat × Option Nat)) (rows : List (Nat × Bytes)) :
    List VersionEntry :=
  rows.map fun row => ⟨row.1, row.2, (stamps.lookup row.1).join⟩

/-- The greatest of some keys. -/
def greatest (keys : List Bytes) : Bytes :=
  keys.foldr (fun key hi => if key ≤ hi then hi else key) []

/-- The distinct keys in order of their first physical key. -/
def sortedKeys (keys : List Bytes) : List Bytes :=
  keys.dedup.insertionSort fun a b => encodeVersionKey a 0 ≤ encodeVersionKey b 0

/-- The rows of one key the scan of a group of keys meets. -/
def chunkRows (log : PhysicalLog) (key : Bytes) (chunk : List Bytes) : List (Nat × Bytes) :=
  if key ∈ chunk then
    (iterRange log (encodeVersionKey (chunk.headD []) 0)
      (some (greatest (chunk.map (encodeVersionKey · (2 ^ 64 - 1)))))).filterMap (rowOf key)
  else []

namespace Sources

variable (s : Sources)

/-- The stored timestamp of a version: a value of eight bytes. -/
def storedTs (v : Nat) : Option Nat :=
  (s.history.get (tsKey v)).bind fun val =>
    if val.length = 8 then some (LittleEndian.ofBytes val) else none

section

variable (faults : Faults)

/-- `try_lookup_ts`; `none` is a storage error. -/
def tryLookupTs (v : Nat) : Option (Option Nat) :=
  if faults.single v then none else some (s.storedTs v)

/-- The timestamps of one group: after an error of `get_many` each is looked up by itself. -/
def fetchStamps (chunk : List Nat) : Option (List (Nat × Option Nat)) :=
  if faults.many chunk then chunk.mapM fun v => (s.tryLookupTs faults v).map (v, ·)
  else some (chunk.map fun v => (v, s.storedTs v))

/-- The timestamps of some versions: the pending ones, and those of the log in groups of 64. -/
def readStamps (versions : List Nat) : Option (List (Nat × Option Nat)) :=
  let misses := versions.filter fun v => (s.pendingTs v).isNone
  ((chunks 63 misses).mapM (s.fetchStamps faults)).map fun found =>
    versions.map fun v => (v, (s.pendingTs v).or (found.flatten.lookup v).join)

/-- `history_of`; `none` is a storage error. -/
def historyOf (key : Bytes) : Option (List VersionEntry) :=
  if faults.scan key then none
  else
    let rows := mergeVersions
      ((iterRange s.history (encodeVersionKey key 0) none).filterMap (rowOf key)) (s.overlay key)
    (s.readStamps faults (rows.map (·.1))).map (withStamps · rows)

/-- The rows of a key after all groups were read. -/
def group (keys : List Bytes) (key : Bytes) : List (Nat × Bytes) :=
  mergeVersions ((chunks 63 (sortedKeys keys)).flatMap (chunkRows s.history key)) (s.overlay key)

/-- `history_of_many`: after an error of a range scan every key is read by itself; the
timestamps are looked up once for every version. -/
def historyOfMany (keys : List Bytes) : Option (List (List VersionEntry)) :=
  if faults.group then keys.mapM (s.historyOf faults)
  else
    let versions := (keys.dedup.flatMap fun key => (s.group keys key).map (·.1)).dedup
    (s.readStamps faults versions).map fun stamps =>
      keys.map fun key => withStamps stamps (s.group keys key)

end

/-! ### What the calls should return -/

/-- The timestamp of a version: the pending one, else the stored one. -/
def stamp (v : Nat) : Option Nat := (s.pendingTs v).or (s.storedTs v)

/-- The timeline of a key: its rows in the log and the overlay, each version once. -/
def timeline (key : Bytes) : List VersionEntry :=
  (mergeVersions (s.history.entries.filterMap (rowOf key)) (s.overlay key)).map
    fun row => ⟨row.1, row.2, s.stamp row.1⟩

/-- The retained value of a key at a version. -/
def retained (key : Bytes) (v : Nat) : Option Bytes :=
  (s.history.table key v).or ((s.overlay key).lookup v)

end Sources

/-! ## Merged versions -/

theorem lookup_insertionSort (rows : List (Nat × Bytes)) (v : Nat) :
    (rows.insertionSort fun a b => a.1 ≤ b.1).lookup v = rows.lookup v := by
  have hinsert : ∀ (a : Nat × Bytes) (l : List (Nat × Bytes)),
      (l.orderedInsert (fun a b => a.1 ≤ b.1) a).lookup v = (a :: l).lookup v := by
    intro a l
    induction l with
    | nil => rfl
    | cons b l ih =>
      rw [orderedInsert_cons]
      split
      · rfl
      -- the row moves behind one with another version
      rw [lookup_cons, ih, lookup_cons, lookup_cons, lookup_cons]
      by_cases hb : v = b.1
      · have ha : (v == a.1) = false := by
          rw [beq_eq_false_iff_ne]
          omega
        simp [hb ▸ ha, hb]
      · have hb' : (v == b.1) = false := by simpa using hb
        simp [hb']
  induction rows with
  | nil => rfl
  | cons a rows ih =>
    rw [insertionSort_cons, hinsert, lookup_cons, lookup_cons, ih]

/-- Of sorted rows the first of every version stays. -/
theorem dedupVersions_spec {rows : List (Nat × Bytes)} (h : rows.Pairwise fun a b => a.1 ≤ b.1) :
    (dedupVersions rows).Pairwise (fun a b => a.1 < b.1) ∧
      ∀ v x, (v, x) ∈ dedupVersions rows ↔ rows.lookup v = some x := by
  induction rows with
  | nil => simp [dedupVersions]
  | cons row rows ih =>
    rw [pairwise_cons] at h
    obtain ⟨hpair, hmem⟩ := ih h.2
    have hle : ∀ e ∈ dedupVersions rows, row.1 ≤ e.1 := by
      rintro ⟨v, x⟩ he
      obtain ⟨l₁, l₂, rfl, -⟩ := lookup_eq_some_iff.1 ((hmem v x).1 he)
      exact h.1 (v, x) (by simp)
    have hlookup : ∀ v x, (row :: rows).lookup v = some x ↔
        (v, x) = row ∨ v ≠ row.1 ∧ (v, x) ∈ dedupVersions rows := by
      intro v x
      rw [lookup_cons, hmem]
      by_cases hv : v = row.1
      · simp [hv, Prod.ext_iff, eq_comm]
      · have hv' : (v == row.1) = false := by simpa using hv
        simp [hv, hv', Prod.ext_iff]
    simp only [hlookup]
    rw [dedupVersions]
    rcases hrest : dedupVersions rows with _ | ⟨next, others⟩
    · simp
    rw [hrest, pairwise_cons] at hpair
    rw [hrest] at hle
    dsimp only
    split
    · -- the next row has the same version, and the others have later ones
      rename_i hnext
      refine ⟨pairwise_cons.2 ⟨fun e he => hnext ▸ hpair.1 e he, hpair.2⟩, fun v x => ?_⟩
      rw [mem_cons, mem_cons]
      refine or_congr_right ⟨fun he => ⟨?_, Or.inr he⟩, ?_⟩
      · have := hpair.1 _ he
        omega
      · rintro ⟨hv, rfl | he⟩
        · exact absurd hnext hv
        · exact he
    · have hlt : ∀ e ∈ next :: others, row.1 < e.1 := by
        intro e he
        have := hle next mem_cons_self
        rcases mem_cons.1 he with rfl | he
        · omega
        · have := hpair.1 e he
          omega
      refine ⟨pairwise_cons.2 ⟨hlt, pairwise_cons.2 hpair⟩, fun v x => ?_⟩
      rw [mem_cons]
      refine or_congr_right ⟨fun he => ⟨?_, he⟩, And.right⟩
      have := hlt _ he
      omega

/-- Merged rows ascend, and the log goes before the overlay. -/
theorem mergeVersions_spec (rows overlayRows : List (Nat × Bytes)) :
    (mergeVersions rows overlayRows).Pairwise (fun a b => a.1 < b.1) ∧
      ∀ v x, (v, x) ∈ mergeVersions rows overlayRows ↔
        (rows.lookup v).or (overlayRows.lookup v) = some x := by
  have h := dedupVersions_spec
    (pairwise_insertionSort (fun a b : Nat × Bytes => a.1 ≤ b.1) (rows ++ overlayRows))
  refine ⟨h.1, fun v x => ?_⟩
  rw [← lookup_append, ← lookup_insertionSort]
  exact h.2 v x

/-! ## The rows of a range -/

variable {key : Bytes} {v : Nat}

theorem rowOf_eq_some {e : Bytes × Bytes} {x : Bytes} (h : rowOf key e = some (v, x)) :
    e = (encodeVersionKey key v, x) ∧ v < 2 ^ 64 := by
  unfold rowOf at h
  split at h
  · rename_i orig w hdecode
    split at h
    · rename_i horig
      subst horig
      obtain ⟨rfl, rfl⟩ := Prod.mk.inj (Option.some.inj h)
      obtain ⟨hencode, hw⟩ := encode_of_decodeVersionKey hdecode
      exact ⟨Prod.ext hencode rfl, hw⟩
    · cases h
  · cases h

/-- A row is found by its version key. -/
theorem lookup_rows (entries : List (Bytes × Bytes)) (key : Bytes) (hv : v < 2 ^ 64) :
    (entries.filterMap (rowOf key)).lookup v = entries.lookup (encodeVersionKey key v) := by
  induction entries with
  | nil => rfl
  | cons e entries ih =>
    rw [lookup_cons]
    by_cases he : e.1 = encodeVersionKey key v
    · have hrow : rowOf key e = some (v, e.2) := by
        rw [rowOf, he, decodeVersionKey_encode key hv]
        simp
      simp [hrow, he]
    have hne : (encodeVersionKey key v == e.1) = false := by simpa using Ne.symm he
    rw [hne, filterMap_cons]
    rcases hrow : rowOf key e with _ | ⟨w, x⟩
    · exact ih
    · have hvw : (v == w) = false := by
        rw [beq_eq_false_iff_ne]
        rintro rfl
        exact he (congrArg Prod.fst (rowOf_eq_some hrow).1)
      simp [lookup_cons, hvw, ih]

/-- A range that covers all physical keys of a key has all its rows. -/
theorem filterMap_iterRange (log : PhysicalLog) {key lo : Bytes} {hi : Option Bytes}
    (hlo : lo ≤ encodeVersionKey key 0) (hhi : ∀ b ∈ hi, encodeVersionKey key (2 ^ 64 - 1) ≤ b) :
    (iterRange log lo hi).filterMap (rowOf key) = log.entries.filterMap (rowOf key) := by
  rw [iterRange, filterMap_filter]
  apply filterMap_congr
  intro e _
  rcases hrow : rowOf key e with _ | ⟨v, x⟩
  · simp
  obtain ⟨rfl, hv⟩ := rowOf_eq_some hrow
  rw [if_pos]
  simp only [Bool.and_eq_true, decide_eq_true_eq, Option.all_eq_true]
  constructor
  · exact List.le_trans hlo ((encodeVersionKey_le key (by omega) hv).2 (Nat.zero_le v))
  · intro b hb
    exact List.le_trans ((encodeVersionKey_le key hv (by omega)).2 (by omega)) (hhi b hb)

/-! ## Reads that may fail -/

section

variable {α β : Type} {f : α → Option β} {xs : List α}

/-- If all that is read is what it should be, so is the whole. -/
theorem mapM_eq_some_map {g : α → β} (h : ∀ x y, f x = some y → y = g x) {ys : List β}
    (hys : xs.mapM f = some ys) : ys = xs.map g := by
  induction xs generalizing ys with
  | nil => simpa using hys.symm
  | cons x xs ih =>
    simp only [mapM_cons, Option.bind_eq_bind, Option.bind_eq_some_iff] at hys
    obtain ⟨y, hy, rest, hrest, hcons⟩ := hys
    rw [map_cons, ← h x y hy, ← ih hrest]
    exact (Option.some.inj hcons).symm

theorem mapM_isSome (h : ∀ x ∈ xs, (f x).isSome = true) : (xs.mapM f).isSome = true := by
  induction xs with
  | nil => rfl
  | cons x xs ih =>
    obtain ⟨y, hy⟩ := Option.isSome_iff_exists.1 (h x mem_cons_self)
    obtain ⟨ys, hys⟩ := Option.isSome_iff_exists.1 (ih fun x hx => h x (mem_cons_of_mem _ hx))
    simp [hy, hys]

end

/-! ## Groups of keys -/

/-- The groups hold the list as it is. -/
theorem flatten_chunks {α : Type} (n : Nat) (xs : List α) : (chunks n xs).flatten = xs := by
  fun_induction chunks n xs with
  | case1 => rfl
  | case2 x rest ih => rw [flatten_cons, ih, cons_append, take_append_drop]

theorem le_greatest {keys : List Bytes} (h : key ∈ keys) : key ≤ greatest keys := by
  induction keys with
  | nil => cases h
  | cons k keys ih =>
    rw [greatest, foldr_cons]
    rcases mem_cons.1 h with rfl | h
    · split
      · assumption
      · exact List.le_refl _
    · split
      · exact ih h
      · rename_i hk
        exact List.le_trans (ih h) (List.le_of_lt (List.not_le.1 hk))

theorem pairwise_sortedKeys (keys : List Bytes) : (sortedKeys keys).Pairwise
    fun a b => encodeVersionKey a 0 ≤ encodeVersionKey b 0 := by
  exact pairwise_insertionSort _ _

/-- The scan of a sorted group meets all rows of its keys. -/
theorem chunkRows_of_mem (log : PhysicalLog) {chunk : List Bytes}
    (hsorted : chunk.Pairwise fun a b => encodeVersionKey a 0 ≤ encodeVersionKey b 0)
    (hkey : key ∈ chunk) : chunkRows log key chunk = log.entries.filterMap (rowOf key) := by
  rw [chunkRows, if_pos hkey]
  apply filterMap_iterRange
  · cases chunk with
    | nil => cases hkey
    | cons first chunk =>
      rcases mem_cons.1 hkey with rfl | hkey
      · exact List.le_refl _
      · exact (pairwise_cons.1 hsorted).1 key hkey
  · rintro b ⟨⟩
    exact le_greatest (mem_map_of_mem hkey)

/-- Each key is in one group. -/
theorem flatMap_chunkRows (log : PhysicalLog) {groups : List (List Bytes)}
    (hsorted : groups.flatten.Pairwise fun a b => encodeVersionKey a 0 ≤ encodeVersionKey b 0)
    (hnodup : groups.flatten.Nodup) (hkey : key ∈ groups.flatten) :
    groups.flatMap (chunkRows log key) = log.entries.filterMap (rowOf key) := by
  induction groups with
  | nil => simp at hkey
  | cons chunk groups ih =>
    rw [flatten_cons] at hsorted hnodup
    rw [pairwise_append] at hsorted
    rw [nodup_append] at hnodup
    rw [flatMap_cons]
    by_cases hmem : key ∈ chunk
    · have hrest : groups.flatMap (chunkRows log key) = [] := by
        rw [flatMap_eq_nil_iff]
        intro c hc
        rw [chunkRows, if_neg]
        intro hin
        exact hnodup.2.2 key hmem key (mem_flatten_of_mem hc hin) rfl
      rw [hrest, append_nil, chunkRows_of_mem log hsorted.1 hmem]
    · rw [chunkRows, if_neg hmem]
      exact ih hsorted.2.1 hnodup.2.1 ((mem_append.1 hkey).resolve_left hmem)

namespace Sources

variable (s : Sources)

/-- The rows of a key do not depend on the other keys asked for. -/
theorem group_eq {keys : List Bytes} (h : key ∈ keys) : s.group keys key =
    mergeVersions (s.history.entries.filterMap (rowOf key)) (s.overlay key) := by
  rw [group, flatMap_chunkRows]
  · rw [flatten_chunks]
    exact pairwise_sortedKeys keys
  · rw [flatten_chunks, sortedKeys, (perm_insertionSort _ _).nodup_iff]
    exact nodup_dedup keys
  · rw [flatten_chunks, sortedKeys, mem_insertionSort]
    exact mem_dedup.2 h

/-! ### Timestamps -/

section

variable {s} {faults : Faults}

/-- Fetched stamps are the stored ones. -/
theorem fetchStamps_eq {chunk : List Nat} {found : List (Nat × Option Nat)}
    (h : s.fetchStamps faults chunk = some found) :
    found = chunk.map fun v => (v, s.storedTs v) := by
  unfold fetchStamps at h
  split at h
  · refine mapM_eq_some_map (fun v row hrow => ?_) h
    unfold tryLookupTs at hrow
    split at hrow
    · cases hrow
    · exact (Option.some.inj hrow).symm
  · exact (Option.some.inj h).symm

/-- Whatever reads had to be repeated, the timestamps are those of the versions. -/
theorem readStamps_eq {versions : List Nat} {stamps : List (Nat × Option Nat)}
    (h : s.readStamps faults versions = some stamps) :
    stamps = versions.map fun v => (v, s.stamp v) := by
  obtain ⟨found, hfound, rfl⟩ := Option.map_eq_some_iff.1 h
  apply map_congr_left
  intro v hv
  rw [stamp, mapM_eq_some_map (fun _ _ => fetchStamps_eq) hfound, ← map_flatten, flatten_chunks]
  cases hpending : s.pendingTs v with
  | some ts => rfl
  | none => rw [lookup_graph _ (mem_filter.2 ⟨hv, by simp [hpending]⟩), Option.join_some]

/-- Every row gets its own stamp. -/
theorem withStamps_eq {versions : List Nat} {stamps : List (Nat × Option Nat)}
    (h : s.readStamps faults versions = some stamps) {rows : List (Nat × Bytes)}
    (hrows : ∀ row ∈ rows, row.1 ∈ versions) :
    withStamps stamps rows = rows.map fun row => ⟨row.1, row.2, s.stamp row.1⟩ := by
  rw [readStamps_eq h]
  apply map_congr_left
  intro row hrow
  rw [lookup_graph _ (hrows row hrow), Option.join_some]

/-- Single reads that do not fail are enough. -/
theorem readStamps_isSome (h : ∀ v, faults.single v = false) (versions : List Nat) :
    (s.readStamps faults versions).isSome = true := by
  rw [readStamps, Option.isSome_map]
  refine mapM_isSome fun chunk _ => ?_
  unfold fetchStamps
  split
  · exact mapM_isSome fun v _ => by simp [tryLookupTs, h v]
  · rfl

/-! ### Timelines -/

/-- A timeline that `history_of` returns is the key's. -/
theorem historyOf_eq {key : Bytes} {entries : List VersionEntry}
    (h : s.historyOf faults key = some entries) : entries = s.timeline key := by
  unfold historyOf at h
  split at h
  · cases h
  obtain ⟨stamps, hstamps, rfl⟩ := Option.map_eq_some_iff.1 h
  rw [withStamps_eq hstamps fun row hrow => mem_map_of_mem hrow, timeline,
    filterMap_iterRange s.history (List.le_refl _) (by simp)]

/-- What `history_of_many` returns are the keys' timelines, one for each position. -/
theorem historyOfMany_eq {keys : List Bytes} {lists : List (List VersionEntry)}
    (h : s.historyOfMany faults keys = some lists) : lists = keys.map s.timeline := by
  unfold historyOfMany at h
  split at h
  · exact mapM_eq_some_map (fun _ _ => historyOf_eq) h
  obtain ⟨stamps, hstamps, rfl⟩ := Option.map_eq_some_iff.1 h
  apply map_congr_left
  intro key hkey
  have hrows : ∀ row ∈ s.group keys key,
      row.1 ∈ (keys.dedup.flatMap fun key => (s.group keys key).map (·.1)).dedup := by
    intro row hrow
    rw [mem_dedup, mem_flatMap]
    exact ⟨key, mem_dedup.2 hkey, mem_map_of_mem hrow⟩
  rw [withStamps_eq hstamps hrows, s.group_eq hkey, timeline]

end

/-- Reads that are repeated do not fail a history. -/
theorem historyOf_isSome (faults : Faults) (key : Bytes) :
    (s.historyOf faults.repeated key).isSome = true := by
  unfold historyOf
  rw [if_neg (by simp [Faults.repeated]), Option.isSome_map]
  exact readStamps_isSome (fun _ => rfl) _

/-- Nor many of them. -/
theorem historyOfMany_isSome (faults : Faults) (keys : List Bytes) :
    (s.historyOfMany faults.repeated keys).isSome = true := by
  unfold historyOfMany
  split
  · exact mapM_isSome fun key _ => s.historyOf_isSome faults key
  · rw [Option.isSome_map]
    exact readStamps_isSome (fun _ => rfl) _

/-- **Batched and single timelines agree.**  What `history_of_many` returns is at every position
the timeline that `history_of` returns for the key, whatever reads fail; and if only reads fail
that are repeated in another way, both return.  A timeline has each retained version once, in
ascending order, with its value and timestamp. -/
theorem history_of_many_eq (faults : Faults) (keys : List Bytes) :
    (∀ lists, s.historyOfMany faults keys = some lists → lists = keys.map s.timeline) ∧
    (∀ key entries, s.historyOf faults key = some entries → entries = s.timeline key) ∧
    s.historyOfMany faults.repeated keys = keys.mapM (s.historyOf faults.repeated) ∧
    s.historyOfMany faults.repeated keys = some (keys.map s.timeline) ∧
    ∀ key, (s.timeline key).Pairwise (fun a b => a.version < b.version) ∧
      ∀ (v : UInt64) x ts, ⟨v.toNat, x, ts⟩ ∈ s.timeline key ↔
        s.retained key v.toNat = some x ∧ ts = s.stamp v.toNat := by
  have hmany : s.historyOfMany faults.repeated keys = some (keys.map s.timeline) := by
    obtain ⟨lists, hlists⟩ := Option.isSome_iff_exists.1 (s.historyOfMany_isSome faults keys)
    rw [hlists, historyOfMany_eq hlists]
  have hone : keys.mapM (s.historyOf faults.repeated) = some (keys.map s.timeline) := by
    obtain ⟨lists, hlists⟩ := Option.isSome_iff_exists.1
      (mapM_isSome fun key (_ : key ∈ keys) => s.historyOf_isSome faults key)
    rw [hlists, mapM_eq_some_map (fun _ _ => historyOf_eq) hlists]
  refine ⟨fun _ => historyOfMany_eq, fun _ _ => historyOf_eq, hmany.trans hone.symm, hmany,
    fun key => ?_⟩
  obtain ⟨hpair, hmem⟩ :=
    mergeVersions_spec (s.history.entries.filterMap (rowOf key)) (s.overlay key)
  refine ⟨pairwise_map.2 hpair, fun v x ts => ?_⟩
  have hrow := hmem v.toNat x
  rw [lookup_rows _ _ v.toNat_lt] at hrow
  rw [show s.retained key v.toNat = some x ↔ _ from hrow.symm, timeline, mem_map]
  constructor
  · rintro ⟨⟨w, y⟩, hmem, heq⟩
    obtain ⟨rfl, rfl, rfl⟩ := VersionEntry.mk.inj heq
    exact ⟨hmem, rfl⟩
  · rintro ⟨hmem, rfl⟩
    exact ⟨(v.toNat, x), hmem, rfl⟩

end Sources

end ShamirDb.HistoryMany
