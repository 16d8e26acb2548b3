/-
# The calls of the multi-version store

Each call of `MvccStore` and of the repository's gate that touches versioned rows, as a
program over the accesses of `MvccStore`: plain writes with their compensation and the
vacuum that follows them, the visible half of a transactional commit, the drainer,
garbage collection, purge, pruning of cells, and a reader that opens a snapshot, reads
through it and drops it.

Where the source walks the whole log, the calls here take the list of keys that hold
rows at some moment of the call, and probe the version slots one by one, so that other
calls can interleave with every row read.  The second scan of a garbage collection
takes its rows in batches, as they are read ahead; `batches` says which slots are read
together.

Not among the calls are the drain of one table before it is renamed (`drain_to_history`), the
writes of recovery and of a follower's receipt (`write_committed_to_history`,
`publish_materialized`), a snapshot that DDL pins at a given version (`open_snapshot_at`), and a
restart of the process: a run is one life of an open store.
-/
import ShamirDb.MvccStore
import ShamirDb.RelyGuarantee

namespace ShamirDb.Mvcc

open Threads

/-- A call of the store that returns an `α`. -/
abbrev Call (K α : Type) := Prog (Access K) Response α

variable {K : Type}

/-- One access. -/
abbrev perform (a : Access K) : Call K (Response a) := Prog.perform a

/-! ## Version guards -/

/-- `VersionGuard::commit`. -/
def commitGuard (v : Nat) : Call K Unit := do
  perform (.mark v .materialized)
  perform .advance
  let w ← perform .watermark
  perform (.raisePublished w)
  perform (.deactivate v)

/-- `VersionGuard::drop` of a version that was never written. -/
def abortGuard (v : Nat) : Call K Unit := do
  perform (.mark v .aborted)
  perform .advance
  perform (.markDurable v .aborted)
  perform .advanceDurable
  let w ← perform .watermark
  perform (.raisePublished w)

/-- `mark_durable`, with its `try_advance`. -/
def markDurable (v : Nat) : Call K Unit := do
  perform (.markDurable v .materialized)
  perform .advanceDurable

/-! ## Snapshots -/

/-- `min_alive`: the lower of the watermark and the oldest registered snapshot; 0 while a
snapshot is being opened. -/
def minAlive : Call K Nat := do
  if ← perform .snapshotsOpening then
    return 0
  let w ← perform .watermark
  match ← perform .minActiveSnapshot with
  | some pin => return min w pin
  | none => return w

/-- `active_snapshots_empty`. -/
def activeSnapshotsEmpty : Call K Bool := do
  if ← perform .noActiveSnapshots then
    let opening ← perform .snapshotsOpening
    return !opening
  return false

/-- The loop of `register_snapshot`; `n` attempts are left. -/
def registerLoop : Nat → List Nat → Nat → Call K (List Nat)
  | 0, registered, _ => return registered
  | n + 1, registered, current => do
    perform (.bumpRefcount current)
    let next ← perform .watermark
    if next = current ∨ n = 0 then
      return registered ++ [current]
    registerLoop n (registered ++ [current]) next

/-- `open_snapshot`: the registered versions, the last of which is read at. -/
def openSnapshot : Call K (List Nat) := do
  perform .openingBegin
  let w ← perform .watermark
  let registered ← registerLoop 4 [] w
  perform (.openingEnd (registered.getLastD 0))
  return registered

/-- `SnapshotGuard::drop`. -/
def dropSnapshot (registered : List Nat) : Call K Unit :=
  Prog.forEach (fun v => perform (.dropRefcount v)) registered

/-! ## Reads -/

/-- An empty value is a tombstone. -/
def liveValue (x : Bytes) : Option Bytes := if x = [] then none else some x

/-- The rows of a key a range scan of the log up to version `n` meets, newest last;
`none` is a storage error. -/
def scanHistoryNewest (k : K) (n : Nat) : Call K (Option (Option (Nat × Bytes))) :=
  Prog.foldM (fun latest v =>
    match latest with
    | none => return none
    | some row => do
      match ← perform (.historyGet k v) with
      | none => return none
      | some none => return some row
      | some (some x) => return some (some (v, x)))
    (some none) (List.range (n + 1))

/-- The newer of the overlay's and the log's row, the overlay's on a tie. -/
def newerRow : Option (Nat × Bytes) → Option (Nat × Bytes) → Option Bytes
  | some (ov, x), some (hv, y) => if hv ≤ ov then liveValue x else liveValue y
  | some (_, x), none => liveValue x
  | none, some (_, y) => liveValue y
  | none, none => none

/-- The fallback of `resolve_read`: the newest version at or below `n` from either
source. -/
def readNewest (k : K) (n : Nat) : Call K (Option (Option Bytes)) := do
  let overlayHit ← perform (.overlayNewest k n)
  match ← scanHistoryNewest k n with
  | none => return none
  | some historyHit => return some (newerRow overlayHit historyHit)

/-- `resolve_read`; `none` is a storage error. -/
def resolveRead (k : K) (n cur : Nat) : Call K (Option (Option Bytes)) :=
  if 0 < cur ∧ cur ≤ n then do
    match ← perform (.overlayGet k cur) with
    | some x => return some (liveValue x)
    | none =>
      match ← perform (.historyGet k cur) with
      | none => return none
      | some (some x) => return some (liveValue x)
      -- the cell's version was attempted and aborted
      | some none => readNewest k (min n (cur - 1))
  else readNewest k n

/-- `get_at`. -/
def getAt (k : K) (n : Nat) : Call K (Option (Option Bytes)) := do
  let cur ← perform (.currentVersion k)
  resolveRead k n cur

/-- The newest version of a key in the log up to version `n` (`seek_latest_published`). -/
def seekLatestPublished (k : K) (n : Nat) : Call K (Option (Option Nat)) := do
  match ← scanHistoryNewest k n with
  | none => return none
  | some row => return some (row.map Prod.fst)

/-- The version `get_current_bytes` reads at when the key has no cell.  The cell is seeded
with the newest version in the log. -/
def coldVersion (k : K) (floor : Nat) : Call K (Option (Option Nat)) := do
  let high ← perform .allocationHighWaterMark
  let native ← perform .receiptNative
  let limit ← perform .scanLimit
  let bounded := native && floor < high
  let historyCap := if bounded then floor else limit
  let overlayCap := if bounded ∨ 0 < floor then floor else limit
  match ← seekLatestPublished k historyCap with
  | none => return none
  | some historyVersion =>
    let overlayHit ← perform (.overlayNewest k overlayCap)
    match historyVersion, overlayHit with
    | some h, some (o, _) =>
      perform (.seedCell k h)
      return some (some (max h o))
    | some h, none =>
      perform (.seedCell k h)
      return some (some h)
    | none, some (o, _) => return some (some o)
    | none, none => return some none

/-- The last part of `get_current_bytes`: the row at `v`, unless that is above the floor. -/
def readCurrent (k : K) (floor v : Nat) : Call K (Option (Option Bytes)) :=
  if 0 < floor ∧ floor < v then getAt k floor
  else do
    match ← perform (.overlayGet k v) with
    | some x => return some (liveValue x)
    | none =>
      match ← perform (.historyGet k v) with
      | none => return none
      | some (some x) => return some (liveValue x)
      | some none => readNewest k (min floor (v - 1))

/-- `get_current_bytes`; the outer `none` is a storage error. -/
def getCurrentBytes (k : K) : Call K (Option (Option Bytes)) := do
  let floor ← perform .lastCommitted
  let cur ← perform (.currentVersion k)
  if 0 < cur then readCurrent k floor cur
  else
    match ← coldVersion k floor with
    | none => return none
    | some none => return some none
    | some (some v) => readCurrent k floor v

/-- A reader: it opens a snapshot, reads the given keys through it and drops it. -/
def session (keys : List K) : Call K Unit := do
  let registered ← openSnapshot
  let n := registered.getLastD 0
  Prog.forEach (fun k => do
    match ← getAt k n with
    | some x => perform (.answer n k x)
    | none => return ()) keys
  dropSnapshot registered

/-! ## Vacuum -/

/-- The version slots of `k` that hold a row, newest first; `none` is a storage error. -/
def scanVersions (k : K) (limit : Nat) : Call K (Option (List Nat)) :=
  Prog.foldM (fun found v =>
    match found with
    | none => return none
    | some entries => do
      match ← perform (.probe k v) with
      | none => return none
      | some true => return some (v :: entries)
      | some false => return some entries)
    (some []) (List.range (limit + 1))

/-- A row to be removed from the log, with the timestamp its version has there. -/
structure Removal (K : Type) where
  key : K
  version : Nat
  ts : Option Nat

/-- The index entry of a removed row goes, if its timestamp is known. -/
def unindex (r : Removal K) : Call K Unit :=
  match r.ts with
  | some ts => perform (.tsIndexRemove ts r.version)
  | none => pure ()

/-- After the removal of rows: their index entries go, and as far as they are durable they
leave the overlay. -/
def reclaimed (removals : List (Removal K)) : Call K Unit :=
  Prog.forEach (fun r => do
    unindex r
    let d ← perform .durableWatermark
    Prog.when (r.version ≤ d) (perform (.overlayRemove r.key r.version))) removals

/-- `flush_history_reclaims`: rows and timestamps go in one `transact`, then the index and
the overlay follow.  Reports whether the `transact` succeeded. -/
def reclaim (removals : List (Removal K)) : Call K Bool := do
  if removals.isEmpty then
    return true
  if ← perform (.reclaimRows (removals.map fun r => (r.key, r.version))) then
    reclaimed removals
    return true
  return false

/-- The version kept for snapshots between it and `minAlive`. -/
def vacuumAnchor (live : Bool) (cur minAlive : Nat) (entries : List Nat) : Option Nat :=
  if live ∨ minAlive < cur then (entries.filter (· < minAlive)).max? else none

/-- Whether one entry goes, and with which timestamp; `idx` is its rank by recency.  With an
age cap the timestamp decides, and is looked up before the other checks. -/
def planEntry (policy : Retention) (cutoff : Option Nat) (minAlive cur : Nat)
    (anchor : Option Nat) (idx v : Nat) : Call K (Option (Option Nat)) :=
  if v = cur then return none
  else if idx < policy.minCount.getD 0 then return none
  else if policy.maxCount.any (idx < ·) then return none
  else
    match cutoff with
    | some c => do
      match ← perform (.lookupTs v) with
      | some ts => return if ts < c ∧ v < minAlive ∧ some v ≠ anchor then some (some ts) else none
      | none => return none
    | none =>
      if minAlive ≤ v ∨ some v = anchor then return none
      else do
        let ts ← perform (.lookupTs v)
        return some ts

/-- The entries to remove, newest first. -/
def planRemovals (k : K) (policy : Retention) (cutoff : Option Nat) (minAlive cur : Nat)
    (anchor : Option Nat) (entries : List Nat) : Call K (List (Removal K)) :=
  Prog.foldM (fun removals entry => do
    match ← planEntry policy cutoff minAlive cur anchor entry.2 entry.1 with
    | some ts => return removals ++ [⟨k, entry.1, ts⟩]
    | none => return removals) [] entries.zipIdx

/-- The end of a scan: with no snapshot and no version in flight the scan flag is
cleared. -/
def scanSettled (snapshotsEmpty : Bool) (cur bound : Nat) : Call K Unit :=
  Prog.when (snapshotsEmpty ∧ cur ≤ bound) do
    let high ← perform .allocationHighWaterMark
    let w ← perform .watermark
    Prog.when (high ≤ w) (perform (.setNeedsScan false))

/-- The scan path of `vacuum_key`.  Reports whether it succeeded. -/
def vacuumScan (k : K) (policy : Retention) (snapshotsEmpty : Bool) : Call K Bool := do
  Prog.when (!snapshotsEmpty) (perform (.setNeedsScan true))
  let now ← perform .nowMillis
  let cutoff := policy.maxAgeSecs.map fun secs => now - secs * 1000
  let bound ← minAlive
  let empty ← activeSnapshotsEmpty
  let limit ← perform .scanLimit
  match ← scanVersions k limit with
  | none => return false
  | some entries =>
    let cur ← perform (.sacredVersion k (!empty) bound)
    let anchor := vacuumAnchor (!empty) cur bound entries
    let removals ← planRemovals k policy cutoff bound cur anchor entries
    if ← reclaim removals then
      scanSettled snapshotsEmpty cur bound
      return true
    return false

/-- The targeted path of `vacuum_key`: `old` becomes the deferred version and the one
deferred before it goes. -/
def vacuumTargeted (k : K) (old : Nat) : Call K Bool := do
  if old = 0 then
    return true
  match ← perform (.swapVacuumAnchor k old) with
  | some deferred =>
    if deferred ≠ old ∧ 0 < deferred then
      let ts ← perform (.lookupTs deferred)
      reclaim [⟨k, deferred, ts⟩]
    else return true
  | none => return true

/-- `vacuum_key`; `old` is the cell's version before the write.  Reports whether it
succeeded. -/
def vacuumKey (k : K) (old : Nat) : Call K Bool := do
  let policy ← perform .retention
  if policy.maxCount.isNone ∧ policy.maxAgeSecs.isNone then
    return true
  let snapshotsEmpty ← activeSnapshotsEmpty
  let openings ← perform .snapshotsOpening
  let w ← perform .watermark
  Prog.when (w < old) (perform (.setNeedsScan true))
  if policy.isCurrentOnly ∧ snapshotsEmpty ∧ old ≤ w then
    let scan ← perform .needsScan
    if !scan ∧ !openings then
      vacuumTargeted k old
    else if !scan ∧ old ≠ 0 then
      -- a snapshot is being opened: only the bookkeeping
      let _ ← perform (.swapVacuumAnchor k old)
      return true
    else vacuumScan k policy snapshotsEmpty
  else vacuumScan k policy snapshotsEmpty

/-! ## Plain writes -/

/-- The cell's version before the write; an append-only write does not read it. -/
def observeCell (appendOnly : Bool) (k : K) : Call K Nat :=
  if appendOnly then return 0 else perform (.currentVersion k)

/-- The bump-first phase: for each row the cell's version, a fresh version, and the cell
raised to it. -/
def allocate (appendOnly : Bool) : List (K × Bytes) → Call K (List (Slot K))
  | [] => return []
  | (k, x) :: rest => do
    let old ← observeCell appendOnly k
    let v ← perform (.assignNextVersion [(k, x)])
    perform (.publishCell k v)
    let slots ← allocate appendOnly rest
    return ⟨k, x, old, v⟩ :: slots

/-- `compensate_failed_write`: the attempted rows go before the versions are aborted; if
they cannot be removed, the versions stay unsettled and writes are refused. -/
def compensateFailedWrite (slots : List (Slot K)) : Call K Unit := do
  if ← perform (.unlogRows slots) then
    Prog.forEach (fun t => abortGuard t.version) slots
  else
    perform .fenceWrites

/-- The vacuum after a write; its failure is remembered in the scan flag. -/
def vacuumAfter (t : Slot K) : Call K Unit := do
  if ← vacuumKey t.key t.old then
    return ()
  perform (.setNeedsScan true)

/-- The body shared by the plain writes: allocate, log, make visible, mark durable,
vacuum.  Returns the highest version, or `none` when the log refused the rows.  A batch
takes its timestamp before it allocates; the clock is the environment's, so the place of
the access does not matter. -/
def writeRows (appendOnly : Bool) (rows : List (K × Bytes)) : Call K (Option Nat) := do
  let slots ← allocate appendOnly rows
  let ts ← perform .nowMillis
  if ← perform (.logRows slots ts) then
    Prog.forEach (fun t => perform (.tsIndexInsert ts t.version)) slots
    Prog.forEach (fun t => perform (.overlayInsert t.key t.version t.value)) slots
    Prog.forEach (fun t => commitGuard t.version) slots
    Prog.forEach (fun t => markDurable t.version) slots
    Prog.forEach vacuumAfter slots
    return some ((slots.map Slot.version).getLastD 0)
  compensateFailedWrite slots
  return none

/-- How a write call can fail. -/
inductive WriteError where
  | validation
  | requiresReopen
  | storage
  deriving DecidableEq

/-- A write behind `ensure_writable`. -/
def writeGuarded (appendOnly : Bool) (rows : List (K × Bytes)) : Call K (Except WriteError Nat) := do
  if ← perform .writesFenced then
    return .error .requiresReopen
  if rows.any fun row => row.2 = [] then
    return .error .validation
  match ← writeRows appendOnly rows with
  | some v => return .ok v
  | none => return .error .storage

/-- `set_versioned`. -/
def setVersioned (k : K) (x : Bytes) : Call K (Except WriteError Nat) :=
  if x = [] then return .error .validation else writeGuarded false [(k, x)]

/-- `set_versioned_many`. -/
def setVersionedMany (rows : List (K × Bytes)) : Call K (Except WriteError Nat) :=
  if rows = [] then return .ok 0 else writeGuarded false rows

/-- `set_versioned_many_append_only`. -/
def setVersionedManyAppendOnly (rows : List (K × Bytes)) : Call K (Except WriteError Nat) :=
  if rows = [] then return .ok 0 else writeGuarded true rows

/-- `delete_versioned` logs a tombstone. -/
def deleteVersioned (k : K) : Call K (Except WriteError Nat) := do
  if ← perform .writesFenced then
    return .error .requiresReopen
  match ← writeRows false [(k, [])] with
  | some v => return .ok v
  | none => return .error .storage

/-! ## Transactional commits -/

/-- The rows a transaction has staged for the store, one for each key. -/
structure WriteSet (K : Type) where
  rows : List (K × Bytes)
  nodup : (rows.map Prod.fst).Nodup

/-- `apply_committed_visible`: the overlay before the cells before the floor. -/
def applyCommittedVisible (rows : List (K × Bytes)) (v : Nat) : Call K Unit := do
  perform (.stampPending v)
  Prog.forEach (fun row => perform (.overlayInsert row.1 v row.2)) rows
  Prog.forEach (fun row => perform (.finalizeReservation row.1 v)) rows
  perform (.raisePublished v)

/-- The commit of a transaction, from the assignment of its version on.  A refused WAL
entry aborts the version; one whose fate is unknown leaves it unsettled; a commit that is
dropped after the WAL has accepted it leaves an orphan for the drainer. -/
def commitTx (set : WriteSet K) : Call K Unit := do
  let v ← perform (.assignNextVersion set.rows)
  match ← perform (.walAppend v set.rows) with
  | .failed => abortGuard v
  | .failedApplied => return ()
  | .done =>
    if ← perform .cancelled then
      perform (.orphan v)
    else
      applyCommittedVisible set.rows v
      if ← perform .cancelled then
        perform (.orphan v)
      else commitGuard v

/-! ## The drainer -/

/-- The commit timestamp of an entry; an entry that was never made visible gets the time of
its drain. -/
def stampEntry (entry : Nat × List (K × Bytes)) : Call K (DrainEntry K) := do
  match ← perform (.pendingTs entry.1) with
  | some ts => return ⟨entry.1, entry.2, ts⟩
  | none =>
    let now ← perform .nowMillis
    return ⟨entry.1, entry.2, now⟩

def stampPassEntries : List (Nat × List (K × Bytes)) → Call K (List (DrainEntry K))
  | [] => return []
  | entry :: rest => do
    let stamped ← stampEntry entry
    let stampedRest ← stampPassEntries rest
    return stamped :: stampedRest

/-- `write_committed_batch_to_history`.  Reports whether it succeeded. -/
def writeCommittedBatchToHistory (entries : List (Nat × List (K × Bytes))) : Call K Bool := do
  if entries.isEmpty then
    return true
  let pass ← stampPassEntries entries
  if ← perform (.drainRows pass) then
    Prog.forEach (fun entry => perform (.tsIndexInsert entry.ts entry.version)) pass
    Prog.forEach (fun entry =>
      Prog.forEach (fun row => perform (.seedCell row.1 entry.1)) entry.2) entries
    perform (.raisePublished ((entries.map Prod.fst).getLastD 0))
    return true
  return false

/-- `gc_overlay_to`; `slots` are the entries the overlay has. -/
def gcOverlayTo (d : Nat) (slots : List (K × Nat)) : Call K Unit := do
  if d = 0 then
    return ()
  Prog.forEach (fun slot => perform (.overlayExpire slot.1 slot.2 d)) slots
  perform (.expirePending d)

/-- The orphan at the end of a drain pass becomes visible by its replay. -/
def drainOrphan : Option (Nat × List (K × Bytes)) → Call K Unit
  | none => pure ()
  | some (v, rows) => do
    if ← writeCommittedBatchToHistory [(v, rows)] then
      perform (.completeOrphan v)
      perform .advance
      let w ← perform .watermark
      perform (.raisePublished w)
      perform (.forgetOrphan v)
      markDurable v

/-- One `drain_step`: the settled entries in one pass, then at most one orphan; then the
overlay is collected. -/
def drainStep (slots : List (K × Nat)) : Call K Unit := do
  let visible ← perform .lastCommitted
  let dur ← perform .durableWatermark
  let window ← perform (.drainWindow dur visible)
  if ← writeCommittedBatchToHistory window.1 then
    Prog.forEach (fun entry => markDurable entry.1) window.1
    drainOrphan window.2
    let d ← perform .durableWatermark
    gcOverlayTo d slots

/-! ## Garbage collection -/

/-- `prune_version_cache`; `cells` are the keys that have a cell. -/
def pruneVersionCache (cells : List K) : Call K Unit := do
  let bound ← minAlive
  Prog.forEach (fun k => perform (.evictCell k bound)) cells

/-- The first scan: for each key its newest row below `bound`. -/
def scanAnchors (bound limit : Nat) : List K → Call K (Option (List (K × Nat)))
  | [] => return some []
  | k :: rest => do
    match ← scanVersions k limit with
    | none => return none
    | some entries =>
      match ← scanAnchors bound limit rest with
      | none => return none
      | some anchors =>
        match (entries.filter (· < bound)).max? with
        | some v => return some ((k, v) :: anchors)
        | none => return some anchors

/-- The slots of a batch of the second scan that hold a row. -/
def readBatch : List (K × Nat) → Call K (Option (List (K × Nat)))
  | [] => return some []
  | slot :: rest => do
    match ← perform (.probe slot.1 slot.2) with
    | none => return none
    | some found =>
      match ← readBatch rest with
      | none => return none
      | some rows => return some (if found then slot :: rows else rows)

/-- Whether a row of the second scan goes, and with which timestamp.  With a cutoff only a
row that is known to be older goes. -/
def sweepRow [DecidableEq K] (bound : Nat) (cutoff : Option Nat) (anchors : List (K × Nat))
    (row : K × Nat) : Call K (Option (Option Nat)) :=
  if bound ≤ row.2 ∨ row ∈ anchors then return none
  else do
    let cur ← perform (.currentVersion row.1)
    if cur = row.2 then
      return none
    let ts ← perform (.lookupTs row.2)
    match cutoff with
    | none => return some ts
    | some c => return if ts.any (· < c) then some ts else none

/-- `MAINT_SCAN_BATCH`. -/
def maintScanBatch : Nat := 256

/-- The rows of one batch: removals are flushed when there are enough of them.  The result
is what is left to flush; `none` is a storage error. -/
def sweepBatch [DecidableEq K] (bound : Nat) (cutoff : Option Nat) (anchors : List (K × Nat))
    (pending : Option (List (Removal K))) (rows : List (K × Nat)) :
    Call K (Option (List (Removal K))) :=
  Prog.foldM (fun pending row =>
    match pending with
    | none => return none
    | some removals => do
      match ← sweepRow bound cutoff anchors row with
      | none => return some removals
      | some ts =>
        let removals := removals ++ [⟨row.1, row.2, ts⟩]
        if removals.length = maintScanBatch then
          if ← reclaim removals then
            return some []
          return none
        return some removals) pending rows

/-- The second scan and its flushes.  Reports whether it succeeded. -/
def sweepRows [DecidableEq K] (bound : Nat) (cutoff : Option Nat) (anchors : List (K × Nat))
    (batches : List (List (K × Nat))) : Call K Bool := do
  let left ← Prog.foldM (fun pending batch =>
    match pending with
    | none => return none
    | some removals => do
      match ← readBatch batch with
      | none => return none
      | some rows => sweepBatch bound cutoff anchors (some removals) rows) (some []) batches
  match left with
  | none => return false
  | some removals => reclaim removals

/-- What a walk over the log meets: the keys of the first scan, and the slots of the second
one in the batches in which they are read. -/
structure Walk (K : Type) where
  keys : List K
  batches : List (List (K × Nat))

/-- The two scans of `gc_below` and `purge_below_ts`. -/
def sweep [DecidableEq K] (bound : Nat) (cutoff : Option Nat) (walk : Walk K) : Call K Bool := do
  perform (.sweepBegin bound)
  let limit ← perform .scanLimit
  match ← scanAnchors bound limit walk.keys with
  | none =>
    perform .sweepEnd
    return false
  | some anchors =>
    let ok ← sweepRows bound cutoff anchors walk.batches
    perform .sweepEnd
    return ok

/-- `gc_below`. -/
def gcBelow [DecidableEq K] (bound : Nat) (walk : Walk K) (cells : List K) : Call K Unit := do
  perform (.sweepRequest bound)
  if ← sweep bound none walk then
    pruneVersionCache cells

/-- `gc`. -/
def gc [DecidableEq K] (walk : Walk K) (cells : List K) : Call K Unit := do
  let bound ← minAlive
  if ← sweep bound none walk then
    pruneVersionCache cells

/-- `purge_below_ts`. -/
def purgeBelowTs [DecidableEq K] (cutoff : Nat) (walk : Walk K) : Call K Unit := do
  let bound ← minAlive
  let _ ← sweep bound (some cutoff) walk

/-! ## All calls -/

/-- The calls a run may make, in any number and in any interleaving. -/
inductive Op (K : Type) where
  | setVersioned (k : K) (x : Bytes)
  | setVersionedMany (rows : List (K × Bytes))
  | setVersionedManyAppendOnly (rows : List (K × Bytes))
  | deleteVersioned (k : K)
  | commitTx (set : WriteSet K)
  | tryReserve (k : K) (snapshot txn : Nat)
  | releaseReservation (k : K) (txn : Nat)
  | drainStep (slots : List (K × Nat))
  | gcOverlay (slots : List (K × Nat))
  | gcBelow (bound : Nat) (walk : Walk K) (cells : List K)
  | gc (walk : Walk K) (cells : List K)
  | purgeBelowTs (cutoff : Nat) (walk : Walk K)
  | pruneVersionCache (cells : List K)
  | getCurrentBytes (k : K)
  | session (keys : List K)
  | setRetention (r : Retention)
  | advance
  | advanceDurable

/-- The program of a call.  `try_advance` of the two trackers is a call of its own. -/
def program [DecidableEq K] : Op K → Call K Unit
  | .setVersioned k x => do let _ ← setVersioned k x
  | .setVersionedMany rows => do let _ ← setVersionedMany rows
  | .setVersionedManyAppendOnly rows => do let _ ← setVersionedManyAppendOnly rows
  | .deleteVersioned k => do let _ ← deleteVersioned k
  | .commitTx set => commitTx set
  | .tryReserve k snapshot txn => do let _ ← perform (.tryReserve k snapshot txn)
  | .releaseReservation k txn => perform (.releaseReservation k txn)
  | .drainStep slots => drainStep slots
  | .gcOverlay slots => do
    let d ← perform .durableWatermark
    gcOverlayTo d slots
  | .gcBelow bound walk cells => gcBelow bound walk cells
  | .gc walk cells => gc walk cells
  | .purgeBelowTs cutoff walk => purgeBelowTs cutoff walk
  | .pruneVersionCache cells => pruneVersionCache cells
  | .getCurrentBytes k => do let _ ← getCurrentBytes k
  | .session keys => session keys
  | .setRetention r => perform (.setRetention r)
  | .advance => perform .advance
  | .advanceDurable => perform .advanceDurable

end ShamirDb.Mvcc
