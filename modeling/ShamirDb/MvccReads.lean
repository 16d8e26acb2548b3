/-
# The parts the calls are made of

Most accesses leave the shared state as it is, and whole stretches of the calls are made
of them: the searches of the log, the plan of a vacuum, the two scans of a collection.
This file singles them out, so that a proof about a call only looks at what it writes.
The second half takes the larger calls apart: a property of programs that is closed under
sequencing holds of a vacuum or a sweep if it holds of the flushes it makes and of the
plain accesses around them.
-/
import ShamirDb.MvccCalls

namespace ShamirDb.Mvcc

open Threads

variable {K : Type}

/-- The accesses that leave the shared state as it is. -/
def Access.IsRead : Access K → Prop
  | .watermark | .durableWatermark | .allocationHighWaterMark | .lastCommitted | .writesFenced
  | .noActiveSnapshots | .snapshotsOpening | .minActiveSnapshot | .currentVersion _
  | .sacredVersion _ _ _ | .probe _ _ | .historyGet _ _ | .lookupTs _ | .tryLookupTs _ | .scanLimit
  | .overlayGet _ _ | .overlayNewest _ _ | .pendingTs _ | .retention | .receiptNative
  | .needsScan | .nowMillis | .cancelled | .drainWindow _ _ | .sweepRequest _ => True
  | _ => False

/-- A read leaves the store. -/
theorem serve_of_isRead [DecidableEq K] {a : Access K} (h : a.IsRead) (i : Nat) (e : Env)
    (s : Store K) : (serve i e s a).1 = s := by
  cases a <;> first | rfl | exact h.elim

/-- A program that only reads. -/
abbrev ReadOnly {α : Type} (p : Call K α) : Prop := p.All Access.IsRead

/-! ## Snapshots and searches -/

/-- `min_alive` only reads. -/
theorem minAlive_reads : ReadOnly (minAlive : Call K Nat) := by
  refine .seq (.perform trivial) fun opening => ?_
  split
  · exact .pure _
  · refine .seq (.perform trivial) fun w => .seq (.perform trivial) fun pin => ?_
    cases pin <;> exact .pure _

/-- The look for open snapshots only reads. -/
theorem activeSnapshotsEmpty_reads : ReadOnly (activeSnapshotsEmpty : Call K Bool) := by
  refine .seq (.perform trivial) fun empty => ?_
  split
  · exact .seq (.perform trivial) fun _ => .pure _
  · exact .pure _

/-- The scan for the newest row of a key only reads. -/
theorem scanHistoryNewest_reads (k : K) (n : Nat) : ReadOnly (scanHistoryNewest k n) := by
  refine .foldM (fun latest v => ?_) _
  cases latest with
  | none => exact .pure _
  | some row =>
    refine .seq (.perform trivial) fun found => ?_
    rcases found with _ | _ | x <;> exact .pure _

/-- So does the fallback over overlay and log. -/
theorem readNewest_reads (k : K) (n : Nat) : ReadOnly (readNewest k n) := by
  refine .seq (.perform trivial) fun hit => .seq (scanHistoryNewest_reads k n) fun found => ?_
  cases found <;> exact .pure _

/-- `resolve_read` only reads. -/
theorem resolveRead_reads (k : K) (n cur : Nat) : ReadOnly (resolveRead k n cur) := by
  unfold resolveRead
  split
  · refine .seq (.perform trivial) fun hit => ?_
    cases hit with
    | some x => exact .pure _
    | none =>
      refine .seq (.perform trivial) fun found => ?_
      rcases found with _ | _ | x
      · exact .pure _
      · exact readNewest_reads k _
      · exact .pure _
  · exact readNewest_reads k n

/-- `get_at` only reads. -/
theorem getAt_reads (k : K) (n : Nat) : ReadOnly (getAt k n) :=
  .seq (.perform trivial) fun cur => resolveRead_reads k n cur

/-- The search for the latest published row only reads. -/
theorem seekLatestPublished_reads (k : K) (n : Nat) : ReadOnly (seekLatestPublished k n) := by
  refine .seq (scanHistoryNewest_reads k n) fun found => ?_
  cases found <;> exact .pure _

/-- The read of a current version only reads. -/
theorem readCurrent_reads (k : K) (floor v : Nat) : ReadOnly (readCurrent k floor v) := by
  unfold readCurrent
  split
  · exact getAt_reads k floor
  refine .seq (.perform trivial) fun hit => ?_
  cases hit with
  | some x => exact .pure _
  | none =>
    refine .seq (.perform trivial) fun found => ?_
    rcases found with _ | _ | x
    · exact .pure _
    · exact readNewest_reads k _
    · exact .pure _

/-! ## Vacuum and collection -/

/-- The list of the versions of a key only reads. -/
theorem scanVersions_reads (k : K) (limit : Nat) : ReadOnly (scanVersions k limit) := by
  refine .foldM (fun found v => ?_) _
  cases found with
  | none => exact .pure _
  | some entries =>
    refine .seq (.perform trivial) fun row => ?_
    rcases row with _ | _ | _ <;> exact .pure _

/-- The decision about one entry only reads. -/
theorem planEntry_reads (policy : Retention) (cutoff : Option Nat) (bound cur : Nat)
    (anchor : Option Nat) (idx v : Nat) :
    ReadOnly (planEntry policy cutoff bound cur anchor idx v : Call K _) := by
  unfold planEntry
  split
  · exact .pure _
  split
  · exact .pure _
  split
  · exact .pure _
  cases cutoff with
  | some c =>
    refine .seq (.perform trivial) fun ts => ?_
    cases ts <;> exact .pure _
  | none =>
    dsimp only
    split
    · exact .pure _
    · exact .seq (.perform trivial) fun _ => .pure _

/-- The plan of the removals of a key only reads. -/
theorem planRemovals_reads (k : K) (policy : Retention) (cutoff : Option Nat) (bound cur : Nat)
    (anchor : Option Nat) (entries : List Nat) :
    ReadOnly (planRemovals k policy cutoff bound cur anchor entries) := by
  refine .foldM (fun removals entry => ?_) _
  refine .seq (planEntry_reads policy cutoff bound cur anchor entry.2 entry.1) fun ts => ?_
  cases ts <;> exact .pure _

/-- The first scan of a garbage collection only reads. -/
theorem scanAnchors_reads (bound limit : Nat) (keys : List K) :
    ReadOnly (scanAnchors bound limit keys) := by
  induction keys with
  | nil => exact .pure _
  | cons k rest ih =>
    refine .seq (scanVersions_reads k limit) fun entries => ?_
    cases entries with
    | none => exact .pure _
    | some entries =>
      refine .seq ih fun anchors => ?_
      cases anchors with
      | none => exact .pure _
      | some anchors => dsimp only; split <;> exact .pure _

/-- A batch of rows is read. -/
theorem readBatch_reads (slots : List (K × Nat)) : ReadOnly (readBatch slots) := by
  induction slots with
  | nil => exact .pure _
  | cons slot rest ih =>
    refine .seq (.perform trivial) fun found => ?_
    cases found with
    | none => exact .pure _
    | some found =>
      refine .seq ih fun rows => ?_
      cases rows <;> exact .pure _

/-- The decision about one row of a sweep only reads. -/
theorem sweepRow_reads [DecidableEq K] (bound : Nat) (cutoff : Option Nat)
    (anchors : List (K × Nat)) (row : K × Nat) : ReadOnly (sweepRow bound cutoff anchors row) := by
  unfold sweepRow
  split
  · exact .pure _
  refine .seq (.perform trivial) fun cur => ?_
  split
  · exact .pure _
  refine .seq (.perform trivial) fun ts => ?_
  cases cutoff <;> exact .pure _

/-! ## Writes and the drainer -/

/-- The look at the cell of a key only reads. -/
theorem observeCell_reads (appendOnly : Bool) (k : K) : ReadOnly (observeCell appendOnly k) := by
  unfold observeCell
  split
  · exact .pure _
  · exact .perform trivial

/-! ## Calls and their parts -/

/-- The accesses that touch neither rows, timestamps and WAL entries, nor the versions of
the gate and of the cells. -/
def Access.IsPlain : Access K → Prop
  | .assignNextVersion _ | .mark _ _ | .publishCell _ _ | .seedCell _ _
  | .finalizeReservation _ _ | .evictCell _ _ | .logRows _ _ | .unlogRows _ | .drainRows _
  | .reclaimRows _ | .tsIndexInsert _ _ | .tsIndexRemove _ _ | .overlayInsert _ _ _
  | .overlayRemove _ _ | .walAppend _ _ | .orphan _ | .deactivate _ | .completeOrphan _
  | .forgetOrphan _ => False
  | _ => True

/-- A read is a plain access. -/
theorem Access.IsRead.isPlain {a : Access K} (h : a.IsRead) : a.IsPlain := by
  cases a <;> trivial

section

variable {P : ∀ {α : Type}, Call K α → Prop} (hP : Prog.Closed P)
  (hplain : ∀ a : Access K, a.IsPlain → P (perform a))
include hP hplain

/-- A call that only reads has every property closed under its accesses. -/
theorem reads_closed {α : Type} {p : Call K α} (hp : ReadOnly p) : P p :=
  hP.of_all (fun a ha => hplain a ha.isPlain) hp

/-- Marking a version durable. -/
theorem markDurable_closed (v : Nat) : P (markDurable v : Call K Unit) :=
  hP.seq (hplain _ trivial) fun _ => hplain _ trivial

/-- The retries of a registration. -/
theorem registerLoop_closed (n : Nat) (registered : List Nat) (current : Nat) :
    P (registerLoop n registered current : Call K (List Nat)) := by
  induction n generalizing registered current with
  | zero => exact hP.pure _
  | succ n ih =>
    refine hP.seq (hplain (.bumpRefcount current) trivial) fun _ =>
      hP.seq (hplain .watermark trivial) fun next => ?_
    split
    · exact hP.pure _
    · exact ih _ next

/-- Opening a snapshot. -/
theorem openSnapshot_closed : P (openSnapshot : Call K (List Nat)) :=
  hP.seq (hplain _ trivial) fun _ => hP.seq (hplain _ trivial) fun w =>
    hP.seq (registerLoop_closed hP hplain 4 [] w) fun _ => hP.seq (hplain _ trivial) fun _ => hP.pure _

/-- A reader: open, read, drop. -/
theorem session_closed (keys : List K) : P (session keys) := by
  refine hP.seq (openSnapshot_closed hP hplain) fun registered =>
    hP.seq (hP.forEach (fun k => ?_) keys) fun _ =>
    hP.forEach (fun v => hplain (.dropRefcount v) trivial) registered
  refine hP.seq (reads_closed hP hplain (getAt_reads k _)) fun answer => ?_
  cases answer with
  | some x => exact hplain _ trivial
  | none => exact hP.pure _

/-- The overlay is collected up to the durable watermark. -/
theorem gcOverlayTo_closed (d : Nat) (slots : List (K × Nat)) : P (gcOverlayTo d slots) := by
  unfold gcOverlayTo
  split
  · exact hP.pure _
  · exact hP.seq (hP.forEach (fun slot => hplain (.overlayExpire slot.1 slot.2 d) trivial) slots)
      fun _ => hplain _ trivial

/-- The scan flag is cleared at the end of a scan. -/
theorem scanSettled_closed (snapshotsEmpty : Bool) (cur bound : Nat) :
    P (scanSettled snapshotsEmpty cur bound : Call K Unit) :=
  hP.when fun _ => hP.seq (hplain _ trivial) fun _ => hP.seq (hplain _ trivial) fun _ =>
    hP.when fun _ => hplain _ trivial

/-- `get_current_bytes`, which may seed a cell. -/
theorem getCurrentBytes_closed (hseed : ∀ (k : K) v, P (perform (.seedCell k v))) (k : K) :
    P (getCurrentBytes k) := by
  have hreads {α : Type} {p : Call K α} (hp : ReadOnly p) : P p := reads_closed hP hplain hp
  have hcold (floor : Nat) : P (coldVersion k floor) := by
    refine hP.seq (hplain _ trivial) fun high => hP.seq (hplain _ trivial) fun native =>
      hP.seq (hplain _ trivial) fun limit => hP.seq (hreads (seekLatestPublished_reads k _))
      fun found => ?_
    cases found with
    | none => exact hP.pure _
    | some found =>
      refine hP.seq (hplain _ trivial) fun hit => ?_
      rcases found with _ | h <;> rcases hit with _ | ⟨o, x⟩
      · exact hP.pure _
      · exact hP.pure _
      · exact hP.seq (hseed k h) fun _ => hP.pure _
      · exact hP.seq (hseed k h) fun _ => hP.pure _
  refine hP.seq (hplain _ trivial) fun floor => hP.seq (hplain _ trivial) fun cur => ?_
  split
  · exact hreads (readCurrent_reads k floor cur)
  refine hP.seq (hcold floor) fun found => ?_
  rcases found with _ | _ | v
  · exact hP.pure _
  · exact hP.pure _
  · exact hreads (readCurrent_reads k floor v)

variable (hreclaim : ∀ removals : List (Removal K), P (reclaim removals))
include hreclaim

/-- The vacuum that scans the versions of a key. -/
theorem vacuumScan_closed (k : K) (policy : Retention) (snapshotsEmpty : Bool) :
    P (vacuumScan k policy snapshotsEmpty) := by
  have hreads {α : Type} {p : Call K α} (hp : ReadOnly p) : P p := reads_closed hP hplain hp
  refine hP.seq (hP.when fun _ => hplain _ trivial) fun _ => hP.seq (hplain _ trivial) fun now =>
    hP.seq (hreads minAlive_reads) fun bound =>
    hP.seq (hreads activeSnapshotsEmpty_reads) fun empty => hP.seq (hplain _ trivial) fun limit =>
    hP.seq (hreads (scanVersions_reads k limit)) fun entries => ?_
  cases entries with
  | none => exact hP.pure _
  | some entries =>
    refine hP.seq (hplain _ trivial) fun cur =>
      hP.seq (hreads (planRemovals_reads k policy _ bound cur _ entries)) fun removals =>
      hP.seq (hreclaim removals) fun ok => ?_
    split
    · exact hP.seq (scanSettled_closed hP hplain snapshotsEmpty cur bound) fun _ => hP.pure _
    · exact hP.pure _

/-- The vacuum of one known version. -/
theorem vacuumTargeted_closed (k : K) (old : Nat) : P (vacuumTargeted k old) := by
  unfold vacuumTargeted
  split
  · exact hP.pure _
  refine hP.seq (hplain _ trivial) fun deferred => ?_
  cases deferred with
  | none => exact hP.pure _
  | some deferred =>
    dsimp only
    split
    · exact hP.seq (hplain _ trivial) fun ts => hreclaim _
    · exact hP.pure _

/-- Either vacuum. -/
theorem vacuumKey_closed (k : K) (old : Nat) : P (vacuumKey k old) := by
  refine hP.seq (hplain _ trivial) fun policy => ?_
  split
  · exact hP.pure _
  refine hP.seq (reads_closed hP hplain activeSnapshotsEmpty_reads) fun snapshotsEmpty =>
    hP.seq (hplain _ trivial) fun openings => hP.seq (hplain _ trivial) fun w =>
    hP.seq (hP.when fun _ => hplain _ trivial) fun _ => ?_
  have hscan := vacuumScan_closed hP hplain hreclaim k policy snapshotsEmpty
  split
  · refine hP.seq (hplain _ trivial) fun scan => ?_
    split
    · exact vacuumTargeted_closed hP hplain hreclaim k old
    split
    · exact hP.seq (hplain _ trivial) fun _ => hP.pure _
    · exact hscan
  · exact hscan

/-- The vacuum that follows a write. -/
theorem vacuumAfter_closed (t : Slot K) : P (vacuumAfter t) := by
  refine hP.seq (vacuumKey_closed hP hplain hreclaim t.key t.old) fun ok => ?_
  split
  · exact hP.pure _
  · exact hplain _ trivial

variable [DecidableEq K]

section

variable (bound : Nat) (cutoff : Option Nat)

/-- One batch of a sweep. -/
theorem sweepBatch_closed (anchors : List (K × Nat)) (left : Option (List (Removal K)))
    (rows : List (K × Nat)) : P (sweepBatch bound cutoff anchors left rows) := by
  refine hP.foldM (fun left row => ?_) left rows
  cases left with
  | none => exact hP.pure _
  | some removals =>
    refine hP.seq (reads_closed hP hplain (sweepRow_reads bound cutoff anchors row)) fun ts => ?_
    cases ts with
    | none => exact hP.pure _
    | some ts =>
      dsimp only
      split
      · refine hP.seq (hreclaim _) fun ok => ?_
        split <;> exact hP.pure _
      · exact hP.pure _

/-- All batches of a sweep. -/
theorem sweepRows_closed (anchors : List (K × Nat)) (batches : List (List (K × Nat))) :
    P (sweepRows bound cutoff anchors batches) := by
  refine hP.seq (hP.foldM (fun left batch => ?_) _ batches) fun left => ?_
  · cases left with
    | none => exact hP.pure _
    | some removals =>
      refine hP.seq (reads_closed hP hplain (readBatch_reads batch)) fun rows => ?_
      cases rows with
      | none => exact hP.pure _
      | some rows => exact sweepBatch_closed hP hplain hreclaim bound cutoff anchors _ rows
  · cases left with
    | none => exact hP.pure _
    | some removals => exact hreclaim removals

/-- Both scans of a garbage collection. -/
theorem sweep_closed (walk : Walk K) : P (sweep bound cutoff walk) := by
  refine hP.seq (hplain _ trivial) fun _ => hP.seq (hplain _ trivial) fun limit =>
    hP.seq (reads_closed hP hplain (scanAnchors_reads bound limit walk.keys)) fun anchors => ?_
  cases anchors with
  | none => exact hP.seq (hplain _ trivial) fun _ => hP.pure _
  | some anchors =>
    exact hP.seq (sweepRows_closed hP hplain hreclaim bound cutoff anchors walk.batches) fun _ =>
      hP.seq (hplain _ trivial) fun _ => hP.pure _

end

/-- **Every call** has the property if its writes, commits, drain steps, prunings and seedings
have it. -/
theorem program_closed (hwrite : ∀ appendOnly (rows : List (K × Bytes)), P (writeRows appendOnly rows))
    (hcommit : ∀ set : WriteSet K, P (commitTx set))
    (hdrain : ∀ slots : List (K × Nat), P (drainStep slots))
    (hprune : ∀ cells : List K, P (pruneVersionCache cells))
    (hseed : ∀ (k : K) v, P (perform (.seedCell k v))) (op : Op K) : P (program op) := by
  have hdone {α : Type} {p : Call K α} (hp : P p) : P (p >>= fun _ => Pure.pure ()) :=
    hP.seq hp fun _ => hP.pure ()
  have hguarded (appendOnly : Bool) (rows : List (K × Bytes)) : P (writeGuarded appendOnly rows) := by
    refine hP.seq (hplain _ trivial) fun fenced => ?_
    split
    · exact hP.pure _
    split
    · exact hP.pure _
    refine hP.seq (hwrite appendOnly rows) fun v => ?_
    cases v <;> exact hP.pure _
  have hsweep := sweep_closed hP hplain hreclaim
  -- the tail of `gc_below` and `gc`
  have htail (bound : Nat) (walk : Walk K) (cells : List K) :
      P (do if ← sweep bound none walk then pruneVersionCache cells : Call K Unit) := by
    refine hP.seq (hsweep bound none walk) fun ok => ?_
    split
    · exact hprune cells
    · exact hP.pure _
  have hbound := reads_closed hP hplain (minAlive_reads)
  cases op with
  | setVersioned k x =>
    refine hdone ?_
    unfold setVersioned
    split
    · exact hP.pure _
    · exact hguarded false [(k, x)]
  | setVersionedMany rows =>
    refine hdone ?_
    unfold setVersionedMany
    split
    · exact hP.pure _
    · exact hguarded false rows
  | setVersionedManyAppendOnly rows =>
    refine hdone ?_
    unfold setVersionedManyAppendOnly
    split
    · exact hP.pure _
    · exact hguarded true rows
  | deleteVersioned k =>
    refine hdone (hP.seq (hplain _ trivial) fun fenced => ?_)
    split
    · exact hP.pure _
    refine hP.seq (hwrite false [(k, [])]) fun v => ?_
    cases v <;> exact hP.pure _
  | commitTx set => exact hcommit set
  | tryReserve k snapshot txn => exact hdone (hplain _ trivial)
  | drainStep slots => exact hdrain slots
  | gcOverlay slots => exact hP.seq (hplain _ trivial) fun d => gcOverlayTo_closed hP hplain d slots
  | gcBelow bound walk cells => exact hP.seq (hplain _ trivial) fun _ => htail bound walk cells
  | gc walk cells => exact hP.seq hbound fun bound => htail bound walk cells
  | purgeBelowTs cutoff walk =>
    exact hP.seq hbound fun bound => hP.seq (hsweep bound (some cutoff) walk) fun _ => hP.pure ()
  | pruneVersionCache cells => exact hprune cells
  | getCurrentBytes k => exact hdone (getCurrentBytes_closed hP hplain hseed k)
  | session keys => exact session_closed hP hplain keys
  | releaseReservation | setRetention | advance | advanceDurable => exact hplain _ trivial

end

end ShamirDb.Mvcc
