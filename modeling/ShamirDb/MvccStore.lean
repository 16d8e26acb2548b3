/-
# The multi-version store and its accesses

`MvccStore` keeps every version of every key in a history log, an in-memory overlay of
the newest versions over it, and a cell per key with the newest version seen.  The
repository's gate hands out versions, settles them and registers snapshots.  All of
this is shared by any number of concurrent calls, so the model lists the atomic
accesses the code makes (one atomic or map operation, one `transact` of the log) and
says what each of them does.  The calls themselves are in `MvccCalls`.

A store is assumed to apply each `transact` atomically: a failed one has applied all
of its operations or none.  Two simplifications widen the set of runs.  How far the loop
of `try_advance` after a `mark` gets is up to the environment (at least one round for the
durable tracker), and the watermarks may also advance at any later time.  The clock is
whatever the environment says.

The last group of fields are history variables: no access reads them to compute a
response or another field.  They say what a version was allocated for, which call
still has to settle it, which snapshot a call reads at, and what reads returned.
-/
import ShamirDb.VersionedRows
import ShamirDb.WalEntry
import Mathlib.Logic.Function.Basic

namespace ShamirDb.Mvcc

open Function

/-! ## Settled versions -/

/-- Terminal state of a version. -/
inductive Outcome where
  | materialized
  | aborted
  deriving DecidableEq

/-- The settled versions of a completion tracker and its contiguous watermark. -/
structure Settlement where
  watermark : Nat
  outcome : Nat → Option Outcome

namespace Settlement

/-- `mark` settles a version once; a second mark has no effect. -/
def mark (t : Settlement) (v : Nat) (o : Outcome) : Settlement :=
  match t.outcome v with
  | some _ => t
  | none => { t with outcome := update t.outcome v (some o) }

/-- One round of `try_advance`: the watermark moves over the next version if that one is
settled. -/
def advance (t : Settlement) : Settlement :=
  match t.outcome (t.watermark + 1) with
  | some _ => { t with watermark := t.watermark + 1 }
  | none => t

/-- Some rounds of `try_advance`. -/
def advanceBy (t : Settlement) : Nat → Settlement
  | 0 => t
  | n + 1 => t.advance.advanceBy n

/-- Nothing settled yet. -/
def fresh : Settlement := ⟨0, fun _ => none⟩

section

variable (t : Settlement) {v w : Nat}
include t

/-- A mark does not move the watermark. -/
theorem mark_watermark (v : Nat) (o : Outcome) : (t.mark v o).watermark = t.watermark := by
  unfold mark
  split <;> rfl

/-- A mark is about one version. -/
theorem mark_outcome_of_ne (o : Outcome) (h : w ≠ v) : (t.mark v o).outcome w = t.outcome w := by
  unfold mark
  split
  · rfl
  · simp [h]

/-- The first mark of a version counts. -/
theorem mark_outcome_self (o : Outcome) (h : t.outcome v = none) :
    (t.mark v o).outcome v = some o := by
  unfold mark
  split
  · exact absurd (h.symm.trans ‹t.outcome v = some _›) (by simp)
  · simp

/-- What is settled stays. -/
theorem mark_outcome_some {o o' : Outcome} (h : t.outcome w = some o') :
    (t.mark v o).outcome w = some o' := by
  by_cases hw : w = v
  · subst hw
    unfold mark
    split
    · exact h
    · exact absurd (h.symm.trans ‹t.outcome w = none›) (by simp)
  · rw [mark_outcome_of_ne t o hw, h]

/-- To advance changes no outcome. -/
theorem advance_outcome : t.advance.outcome = t.outcome := by
  unfold advance
  split <;> rfl

/-- The watermark only rises. -/
theorem watermark_le_advance : t.watermark ≤ t.advance.watermark := by
  unfold advance
  split
  · exact Nat.le_succ _
  · exact le_rfl

/-- It passes over settled versions only. -/
theorem advance_settled (hlt : t.watermark < v) (hle : v ≤ t.advance.watermark) :
    t.outcome v ≠ none := by
  unfold advance at hle
  split at hle
  · have hv : v = t.watermark + 1 := Nat.le_antisymm hle hlt
    rw [hv, ‹t.outcome (t.watermark + 1) = some _›]
    simp
  · omega

/-- A version marked next to the watermark is reached by one round. -/
theorem le_advance_mark (o : Outcome) (hv : v ≤ t.watermark + 1) :
    v ≤ (t.mark v o).advance.watermark := by
  rcases Nat.lt_or_eq_of_le hv with hlt | rfl
  · exact Nat.le_trans (Nat.lt_succ_iff.1 hlt)
      (Nat.le_trans (Nat.le_of_eq (t.mark_watermark v o).symm) (watermark_le_advance _))
  have hsettled : (t.mark (t.watermark + 1) o).outcome (t.watermark + 1) ≠ none := by
    unfold mark
    split
    · simp [‹t.outcome _ = some _›]
    · simp
  unfold advance
  rw [mark_watermark]
  split
  · exact le_rfl
  · exact absurd ‹_› hsettled

/-- Likewise for `n` rounds. -/
theorem advanceBy_outcome (n : Nat) : (t.advanceBy n).outcome = t.outcome := by
  induction n generalizing t with
  | zero => rfl
  | succ n ih => rw [advanceBy, ih, advance_outcome]

theorem watermark_le_advanceBy (n : Nat) : t.watermark ≤ (t.advanceBy n).watermark := by
  induction n generalizing t with
  | zero => exact le_rfl
  | succ n ih => exact Nat.le_trans t.watermark_le_advance (ih t.advance)

theorem advanceBy_settled (n : Nat) (hlt : t.watermark < v) (hle : v ≤ (t.advanceBy n).watermark) :
    t.outcome v ≠ none := by
  induction n generalizing t with
  | zero => exact absurd hle (Nat.not_le.2 hlt)
  | succ n ih =>
    rcases Nat.lt_or_ge t.advance.watermark v with hlt' | hge
    · rw [← t.advance_outcome]
      exact ih t.advance hlt' hle
    · exact t.advance_settled hlt hge

end

end Settlement

/-! ## The shared state -/

/-- `RecordCell`: the newest version seen of a key, the version whose removal vacuum has
deferred, and the transaction that claimed the key (0 for none). -/
structure Cell where
  version : Nat
  vacuumAnchor : Nat
  reservedBy : Nat
  deriving DecidableEq

/-- Retention of old versions: an age cap, a count cap and a count floor. -/
structure Retention where
  maxAgeSecs : Option Nat
  maxCount : Option Nat
  minCount : Option Nat
  deriving DecidableEq

namespace Retention

/-- `Default`: keep only the current version. -/
def currentOnly : Retention := ⟨none, some 0, none⟩

/-- `is_current_only`. -/
def isCurrentOnly (r : Retention) : Bool := r.maxCount = some 0 && r.maxAgeSecs.isNone

/-- `validate`: the floor may not exceed the cap. -/
def validate (r : Retention) : Bool :=
  match r.minCount, r.maxCount with
  | some floor, some cap => floor ≤ cap
  | _, _ => true

end Retention

/-- Where a version whose frame the WAL has accepted stands: a live commit still owns it,
its commit was dropped and the drainer has to replay it, or it has been settled. -/
inductive WalStatus where
  | active
  | orphan
  | settled
  deriving DecidableEq

/-- A WAL entry of a transaction and its status. -/
structure WalRecord (K : Type) where
  ops : List (K × Bytes)
  status : WalStatus

/-- The gate and one store, as the calls see them. -/
structure Store (K : Type) where
  /-- `version_counter`: the last version handed out. -/
  counter : Nat
  /-- `completion`: settled for visibility. -/
  completion : Settlement
  /-- `durable_completion`: settled for durability. -/
  durable : Settlement
  /-- `last_committed_version`: the eager floor of latest-state reads. -/
  published : Nat
  /-- `writes_fenced`. -/
  fenced : Bool
  /-- `active_snapshots_opening`. -/
  opening : Nat
  /-- `active_snapshots`: one entry for each version a call has registered. -/
  pins : List (Nat × Nat)
  retention : Retention
  /-- `receipt_native_visibility`: rows may be in the log before they are published. -/
  receiptNative : Bool
  /-- `vacuum_needs_scan`. -/
  needsScan : Bool
  cells : K → Option Cell
  /-- The version log; an empty value is a tombstone. -/
  history : VersionedRows K Bytes
  /-- The commit timestamps in the log. -/
  stamps : Nat → Option Nat
  /-- `ts_index`: the versions by timestamp. -/
  tsIndex : Nat → Nat → Bool
  overlay : VersionedRows K Bytes
  /-- `pending_ts`: commit timestamps of versions not yet drained. -/
  pendingTs : Nat → Option Nat
  wal : Nat → Option (WalRecord K)
  /-- The rows version `v` was allocated for. -/
  writes : Nat → List (K × Bytes)
  /-- The call that has to settle version `v`. -/
  owner : Nat → Option Nat
  /-- For a call that has registered a snapshot, a version its reads are not below. -/
  views : Nat → Option Nat
  /-- The calls of `gc_below` and `purge_below_ts` in flight, with their bounds. -/
  sweeps : List (Nat × Nat)
  /-- What `get_at` returned: snapshot version, key, value. -/
  answers : List (Nat × K × Option Bytes)

variable {K : Type}

/-- A fresh gate over an empty store. -/
def Store.empty (retention : Retention) (receiptNative : Bool) : Store K where
  counter := 0
  completion := .fresh
  durable := .fresh
  published := 0
  fenced := false
  opening := 0
  pins := []
  retention := retention
  receiptNative := receiptNative
  needsScan := false
  cells := fun _ => none
  history := fun _ _ => none
  stamps := fun _ => none
  tsIndex := fun _ _ => false
  overlay := fun _ _ => none
  pendingTs := fun _ => none
  wal := fun _ => none
  writes := fun _ => []
  owner := fun _ => none
  views := fun _ => none
  sweeps := []
  answers := []

/-- A row a plain write has allocated a version for; `old` is the cell's version it saw
before. -/
structure Slot (K : Type) where
  key : K
  value : Bytes
  old : Nat
  version : Nat

/-- A WAL entry on its way to the log: its version, its rows and the timestamp it gets. -/
structure DrainEntry (K : Type) where
  version : Nat
  rows : List (K × Bytes)
  ts : Nat

/-- How an I/O request ended: done, failed without effect, failed after taking effect. -/
inductive Io where
  | done
  | failed
  | failedApplied
  deriving DecidableEq

/-- What the environment contributes to an access: the fate of an I/O request, the
clock, how far beyond the allocated versions a scan looks, how many rounds `try_advance`
makes, and whether the call's future is dropped here. -/
structure Env where
  io : Io
  now : Nat
  ahead : Nat
  rounds : Nat
  cancelled : Bool

/-! ## The accesses -/

/-- The accesses to the shared state. -/
inductive Access (K : Type) where
  -- the gate
  | assignNextVersion (rows : List (K × Bytes))
  | mark (v : Nat) (o : Outcome)
  | markDurable (v : Nat) (o : Outcome)
  | advance
  | advanceDurable
  | watermark
  | durableWatermark
  | allocationHighWaterMark
  | lastCommitted
  | raisePublished (v : Nat)
  | fenceWrites
  | writesFenced
  -- snapshots
  | openingBegin
  | openingEnd (s : Nat)
  | bumpRefcount (v : Nat)
  | dropRefcount (v : Nat)
  | noActiveSnapshots
  | snapshotsOpening
  | minActiveSnapshot
  -- cells
  | currentVersion (k : K)
  | sacredVersion (k : K) (live : Bool) (minAlive : Nat)
  | publishCell (k : K) (v : Nat)
  | seedCell (k : K) (v : Nat)
  | finalizeReservation (k : K) (v : Nat)
  | tryReserve (k : K) (snapshot txn : Nat)
  | releaseReservation (k : K) (txn : Nat)
  | swapVacuumAnchor (k : K) (anchor : Nat)
  | evictCell (k : K) (minAlive : Nat)
  -- the log
  | logRows (slots : List (Slot K)) (ts : Nat)
  | unlogRows (slots : List (Slot K))
  | drainRows (pass : List (DrainEntry K))
  | reclaimRows (rows : List (K × Nat))
  | probe (k : K) (v : Nat)
  | historyGet (k : K) (v : Nat)
  | lookupTs (v : Nat)
  | tryLookupTs (v : Nat)
  | tsIndexInsert (ts v : Nat)
  | tsIndexRemove (ts v : Nat)
  | scanLimit
  -- the overlay
  | overlayInsert (k : K) (v : Nat) (x : Bytes)
  | overlayRemove (k : K) (v : Nat)
  | overlayExpire (k : K) (v d : Nat)
  | overlayGet (k : K) (v : Nat)
  | overlayNewest (k : K) (s : Nat)
  | stampPending (v : Nat)
  | pendingTs (v : Nat)
  | expirePending (d : Nat)
  -- retention and clock
  | retention
  | setRetention (r : Retention)
  | receiptNative
  | needsScan
  | setNeedsScan (b : Bool)
  | nowMillis
  -- the write-ahead log of transactions
  | walAppend (v : Nat) (ops : List (K × Bytes))
  | cancelled
  | orphan (v : Nat)
  | deactivate (v : Nat)
  | drainWindow (dur visible : Nat)
  | completeOrphan (v : Nat)
  | forgetOrphan (v : Nat)
  -- history variables
  | sweepRequest (bound : Nat)
  | sweepBegin (bound : Nat)
  | sweepEnd
  | answer (s : Nat) (k : K) (x : Option Bytes)

/-- What an access returns. -/
abbrev Response : Access K → Type
  | .assignNextVersion _ | .watermark | .durableWatermark | .allocationHighWaterMark
  | .lastCommitted | .currentVersion _ | .sacredVersion _ _ _ | .scanLimit | .nowMillis => Nat
  | .writesFenced | .noActiveSnapshots | .snapshotsOpening | .tryReserve _ _ _ | .logRows _ _
  | .unlogRows _ | .drainRows _ | .reclaimRows _ | .needsScan | .cancelled | .receiptNative => Bool
  | .probe _ _ => Option Bool
  | .minActiveSnapshot | .swapVacuumAnchor _ _ | .lookupTs _ | .pendingTs _ => Option Nat
  | .historyGet _ _ => Option (Option Bytes)
  | .tryLookupTs _ => Option (Option Nat)
  | .overlayGet _ _ => Option Bytes
  | .overlayNewest _ _ => Option (Nat × Bytes)
  | .retention => Retention
  | .walAppend _ _ => Io
  | .drainWindow _ _ => List (Nat × List (K × Bytes)) × Option (Nat × List (K × Bytes))
  | .mark _ _ | .markDurable _ _ | .advance | .advanceDurable | .raisePublished _
  | .fenceWrites | .openingBegin | .openingEnd _ | .bumpRefcount _ | .dropRefcount _
  | .publishCell _ _ | .seedCell _ _ | .finalizeReservation _ _ | .releaseReservation _ _
  | .evictCell _ _ | .overlayInsert _ _ _ | .overlayRemove _ _ | .overlayExpire _ _ _
  | .tsIndexInsert _ _ | .tsIndexRemove _ _ | .stampPending _ | .expirePending _ | .setRetention _ | .setNeedsScan _ | .orphan _
  | .deactivate _ | .completeOrphan _ | .forgetOrphan _ | .sweepRequest _ | .sweepBegin _ | .sweepEnd
  | .answer _ _ _ => Unit

/-! ### Cells -/

namespace Store

/-- `current_version`: 0 when the key has no cell. -/
def currentVersion (s : Store K) (k : K) : Nat :=
  match s.cells k with
  | some c => c.version
  | none => 0

end Store

/-- `publish_cell`: the cell's version never goes down; a missing cell is inserted. -/
def Cell.publish (v : Nat) : Option Cell → Cell
  | some c => { c with version := max c.version v }
  | none => ⟨v, 0, 0⟩

/-- `finalize_reservation`: publishes and clears the claim. -/
def Cell.finalize (v : Nat) : Option Cell → Cell
  | some c => { c with version := max c.version v, reservedBy := 0 }
  | none => ⟨v, 0, 0⟩

/-- `try_reserve`: claims a free cell that has not moved past the snapshot. -/
def Cell.reserve (snapshot txn : Nat) : Option Cell → Option Cell
  | some c => if c.version ≤ snapshot ∧ c.reservedBy = 0 then some { c with reservedBy := txn } else none
  | none => some ⟨0, 0, txn⟩

/-- The predicate of `prune_version_cache`. -/
def Cell.evictable (minAlive : Nat) (c : Cell) : Bool := c.version < minAlive && c.reservedBy = 0

/-! ### Log batches -/

/-- The rows a write logs. -/
def slotRows (slots : List (Slot K)) : List (K × Nat × Bytes) :=
  slots.map fun t => (t.key, t.version, t.value)

/-- The rows a drain pass logs. -/
def passRows (pass : List (DrainEntry K)) : List (K × Nat × Bytes) :=
  pass.flatMap fun entry => entry.rows.map fun row => (row.1, entry.version, row.2)

/-- The timestamps of some versions set to `ts`. -/
def stampAll (stamps : Nat → Option Nat) (versions : List Nat) (ts : Option Nat) :
    Nat → Option Nat :=
  fun v => if v ∈ versions then ts else stamps v

/-- The timestamps a drain pass logs; of two for one version the later one stays. -/
def stampPass (stamps : Nat → Option Nat) : List (DrainEntry K) → Nat → Option Nat
  | [] => stamps
  | entry :: rest => stampPass (update stamps entry.version (some entry.ts)) rest

/-- The WAL entries a drain pass takes, in version order from `v` on and without a gap:
settled entries up to `visible`, and one orphan at the end. -/
def drainable (wal : Nat → Option (WalRecord K)) (visible : Nat) :
    Nat → Nat → List (Nat × List (K × Bytes)) × Option (Nat × List (K × Bytes))
  | _, 0 => ([], none)
  | v, fuel + 1 =>
    match wal v with
    | some ⟨_, .active⟩ => ([], none)
    | some ⟨ops, .orphan⟩ => ([], some (v, ops))
    | some ⟨ops, .settled⟩ =>
      if v ≤ visible then
        let rest := drainable wal visible (v + 1) fuel
        ((v, ops) :: rest.1, rest.2)
      else ([], none)
    | none => ([], none)

/-! ## What an access does -/

variable [DecidableEq K]

/-- The effect of a `transact` and what it reports. -/
def transact (io : Io) (s applied : Store K) : Store K × Bool :=
  match io with
  | .done => (applied, true)
  | .failed => (s, false)
  | .failedApplied => (applied, false)

/-- **The access `a` of call `i`**: the state it leaves and the response it gets. -/
def serve (i : Nat) (e : Env) (s : Store K) : (a : Access K) → Store K × Response a
  | .assignNextVersion rows =>
    ({ s with
        counter := s.counter + 1
        writes := update s.writes (s.counter + 1) rows
        owner := update s.owner (s.counter + 1) (some i) }, s.counter + 1)
  | .mark v o =>
    ({ s with completion := s.completion.mark v o, owner := update s.owner v none }, ())
  | .markDurable v o => ({ s with durable := s.durable.mark v o }, ())
  | .advance => ({ s with completion := s.completion.advanceBy e.rounds }, ())
  | .advanceDurable => ({ s with durable := s.durable.advanceBy (e.rounds + 1) }, ())
  | .watermark => (s, s.completion.watermark)
  | .durableWatermark => (s, s.durable.watermark)
  | .allocationHighWaterMark => (s, s.counter)
  | .lastCommitted => (s, s.published)
  | .raisePublished v => ({ s with published := max s.published v }, ())
  | .fenceWrites => ({ s with fenced := true }, ())
  | .writesFenced => (s, s.fenced)
  | .openingBegin => ({ s with opening := s.opening + 1 }, ())
  | .openingEnd n =>
    ({ s with opening := s.opening - 1, views := update s.views i (some n) }, ())
  | .bumpRefcount v =>
    ({ s with
        pins := (i, v) :: s.pins
        views := update s.views i (some ((s.views i).getD s.completion.watermark)) }, ())
  | .dropRefcount v =>
    ({ s with pins := s.pins.erase (i, v), views := update s.views i none }, ())
  | .noActiveSnapshots => (s, s.pins.isEmpty)
  | .snapshotsOpening => (s, decide (0 < s.opening))
  | .minActiveSnapshot => (s, (s.pins.map Prod.snd).min?)
  | .currentVersion k => (s, s.currentVersion k)
  | .sacredVersion k _ _ => (s, s.currentVersion k)
  | .publishCell k v =>
    ({ s with cells := update s.cells k (some (Cell.publish v (s.cells k))) }, ())
  | .seedCell k v =>
    ({ s with cells := update s.cells k (some (Cell.publish v (s.cells k))) }, ())
  | .finalizeReservation k v =>
    ({ s with cells := update s.cells k (some (Cell.finalize v (s.cells k))) }, ())
  | .tryReserve k snapshot txn =>
    match Cell.reserve snapshot txn (s.cells k) with
    | some c => ({ s with cells := update s.cells k (some c) }, true)
    | none => (s, false)
  | .releaseReservation k txn =>
    match s.cells k with
    | some c =>
      if c.reservedBy = txn then
        ({ s with cells := update s.cells k (some { c with reservedBy := 0 }) }, ())
      else (s, ())
    | none => (s, ())
  | .swapVacuumAnchor k anchor =>
    match s.cells k with
    | some c =>
      ({ s with cells := update s.cells k (some { c with vacuumAnchor := anchor }) },
        some c.vacuumAnchor)
    | none => (s, none)
  | .evictCell k minAlive =>
    match s.cells k with
    | some c =>
      if c.evictable minAlive then ({ s with cells := update s.cells k none }, ())
      else (s, ())
    | none => (s, ())
  | .logRows slots ts =>
    transact e.io s
      { s with
        history := s.history.setAll (slotRows slots)
        stamps := stampAll s.stamps (slots.map Slot.version) (some ts) }
  | .unlogRows slots =>
    transact e.io s
      { s with
        history := s.history.clearAll (slots.map fun t => (t.key, t.version))
        stamps := stampAll s.stamps (slots.map Slot.version) none }
  | .drainRows pass =>
    transact e.io s
      { s with
        history := s.history.setAll (passRows pass)
        stamps := stampPass s.stamps pass }
  | .reclaimRows rows =>
    transact e.io s
      { s with
        history := s.history.clearAll rows
        stamps := stampAll s.stamps (rows.map Prod.snd) none }
  | .probe k v => (s, if e.io = .done then some (s.history k v).isSome else none)
  | .historyGet k v => (s, if e.io = .done then some (s.history k v) else none)
  | .lookupTs v => (s, if e.io = .done then s.stamps v else none)
  | .tryLookupTs v => (s, if e.io = .done then some (s.stamps v) else none)
  | .tsIndexInsert ts v =>
    ({ s with tsIndex := update s.tsIndex ts (update (s.tsIndex ts) v true) }, ())
  | .tsIndexRemove ts v =>
    ({ s with tsIndex := update s.tsIndex ts (update (s.tsIndex ts) v false) }, ())
  | .scanLimit => (s, s.counter + e.ahead)
  | .overlayInsert k v x =>
    ({ s with overlay := s.overlay.set k v (some ((s.overlay k v).getD x)) }, ())
  | .overlayRemove k v => ({ s with overlay := s.overlay.set k v none }, ())
  | .overlayExpire k v d =>
    if v ≤ d then ({ s with overlay := s.overlay.set k v none }, ()) else (s, ())
  | .overlayGet k v => (s, s.overlay k v)
  | .overlayNewest k n => (s, VersionedRows.newest (s.overlay k) n)
  | .stampPending v =>
    ({ s with pendingTs := update s.pendingTs v (some ((s.pendingTs v).getD e.now)) }, ())
  | .pendingTs v => (s, s.pendingTs v)
  | .expirePending d =>
    ({ s with pendingTs := fun v => if v ≤ d then none else s.pendingTs v }, ())
  | .retention => (s, s.retention)
  | .setRetention r => (if r.validate then { s with retention := r } else s, ())
  | .receiptNative => (s, s.receiptNative)
  | .needsScan => (s, s.needsScan)
  | .setNeedsScan b => ({ s with needsScan := b }, ())
  | .nowMillis => (s, e.now)
  | .walAppend v ops =>
    match e.io with
    | .done => ({ s with wal := update s.wal v (some ⟨ops, .active⟩) }, .done)
    | io => (s, io)
  | .cancelled => (s, e.cancelled)
  | .orphan v =>
    ({ s with
        wal := update s.wal v ((s.wal v).map fun r => { r with status := .orphan })
        owner := update s.owner v none }, ())
  | .deactivate v =>
    ({ s with wal := update s.wal v ((s.wal v).map fun r => { r with status := .settled }) },
      ())
  | .drainWindow dur visible =>
    (s, drainable s.wal visible (dur + 1) (s.counter - dur))
  | .completeOrphan v =>
    match s.wal v with
    | some ⟨_, .orphan⟩ => ({ s with completion := s.completion.mark v .materialized }, ())
    | _ => (s, ())
  | .forgetOrphan v =>
    ({ s with wal := update s.wal v ((s.wal v).map fun r => { r with status := .settled }) },
      ())
  | .sweepRequest _ => (s, ())
  | .sweepBegin bound => ({ s with sweeps := (i, bound) :: s.sweeps }, ())
  | .sweepEnd => ({ s with sweeps := s.sweeps.filter fun sweep => sweep.1 ≠ i }, ())
  | .answer n k x => ({ s with answers := (n, k, x) :: s.answers }, ())

end ShamirDb.Mvcc
