/-
# A process on a segment set

The calls on a segment set, cut at the points where another call or a crash can fall
between: an append writes its batch, then a full segment is sealed in steps (fsync, swap,
sidecar write), while a truncation unlinks its candidates one by one.  The group-commit
leader is the only appender, so at most one append is under way.  A seal may be cancelled
or fail at any of these points: the leader then stops, no append follows until the
directory is opened again, and a sidecar write that was dispatched still lands.  A crash
kills everything in flight and the directory is opened again.

A write that fails is rolled back here, or the process dies with what was written
(`crashInAppend`).  A rollback that fails as well leaves a torn frame in a sealed segment, and
the next open refuses the directory: that is the subject of `SegmentFaults`.

The single calls of the segment-set model are runs of this machine (`run_append`, `run_truncate`).
-/
import ShamirDb.SegmentFaults

namespace ShamirDb

variable {Body : Type} (crc : Bytes → UInt32) (bincode : Bincode Body)

open WalSegment Machine

/-- Where the seal of a full active segment stands: the record is captured and the fsync
is next, or the fsync is done and the swap is next, or the seal was given up before the
swap and the leader stopped. -/
inductive Sealing where
  | idle
  | captured (record : SealedMeta)
  | synced (record : SealedMeta)
  | abandoned
  deriving DecidableEq

/-- The record of the seal under way. -/
def Sealing.record? : Sealing → Option SealedMeta
  | .idle => none
  | .captured record => some record
  | .synced record => some record
  | .abandoned => none

/-- A segment set with the calls in flight on it.  `sidecars` are the sidecar writes that
were dispatched and have not landed; `cleanup` are the candidates the truncation up to
`durable` has not visited yet; `failed` is the error of a failed reopen. -/
structure SegmentProcess where
  set : SegmentSet
  sealing : Sealing
  sidecars : List SealedMeta
  durable : UInt64
  cleanup : List SealedMeta
  failed : Option DbError

namespace SegmentProcess

/-- One step.  `write` and `retry` say after how many bytes the write of an append and of
its retry fail, if they do; a failed write is rolled back.  A crash outside of a write may
leave the next segment's empty file behind, which both rotations create before they
swap. -/
inductive Event where
  | append (write retry : Option Nat) (payloads : List Bytes) (maxVersion : UInt64)
  | fsync (succeeds : Bool)
  | swap
  | cancel
  | sidecar (i : Nat) (succeeds : Bool)
  | sync (succeeds : Bool)
  | truncate (durable : UInt64)
  | unlink (removal : SegmentSet.Unlink)
  | crash (nextCreated : Bool)
  | crashInAppend (failedFirst : Option Nat) (written : Nat) (payloads : List Bytes)
      (maxVersion : UInt64)
  deriving DecidableEq

/-- The write call of an attempt: it succeeds, or fails and is rolled back.  The outcome in
which the rollback fails too is left out. -/
def outcome : Option Nat → WriteOutcome
  | none => .ok
  | some written => .fails written true

/-- One attempt to append to the active segment. -/
def attempt (write : Option Nat) (set : SegmentSet) (payloads : List Bytes)
    (maxVersion : UInt64) : DbResult Nat × SegmentSet :=
  let r := set.active.appendBatch crc bincode (outcome write) payloads maxVersion
  (r.1, { set with active := r.2 })

/-- `append_batch` up to the seal: leave a poisoned segment, write, retry once on a fresh
segment, and capture the record of a segment that became full. -/
def append (write retry : Option Nat) (payloads : List Bytes) (maxVersion : UInt64)
    (set : SegmentSet) : SegmentSet × Sealing :=
  let first := attempt crc bincode write set.unpoisoned payloads maxVersion
  match first.1 with
  | .ok _ =>
    (first.2, if first.2.maxBytes ≤ first.2.active.bytesWritten then .captured first.2.sealRecord
      else .idle)
  | .error _ =>
    if first.2.active.poisoned then
      ((attempt crc bincode retry first.2.rotateAfterPoison payloads maxVersion).2, .idle)
    else (first.2, .idle)

/-- The process dies over the directory of `set` and opens it again. -/
def restart (set : SegmentSet) (nextCreated : Bool) (p : SegmentProcess) : SegmentProcess :=
  let left := if nextCreated then set.image.wal ++ [(set.activeSeq + 1, [])] else set.image.wal
  match SegmentSet.open crc bincode set.dir set.maxBytes ⟨left, set.metas⟩ with
  | .ok opened => ⟨opened, .idle, [], 0, [], none⟩
  | .error e => { p with failed := some e }

/-- The set whose active segment the interrupted attempt of an append writes to. -/
def writingTo (failedFirst : Option Nat) (payloads : List Bytes) (maxVersion : UInt64)
    (set : SegmentSet) : SegmentSet :=
  match failedFirst with
  | none => set.unpoisoned
  | some written =>
    (attempt crc bincode (some written) set.unpoisoned payloads maxVersion).2.unpoisoned

/-- The active file with the part of the frames that reached it. -/
def tear (written : Nat) (payloads : List Bytes) (set : SegmentSet) : SegmentSet :=
  { set with
    active := { set.active with file := set.active.file ++ (frames crc payloads).take written } }

/-- One step of the process. -/
def step (p : SegmentProcess) : Event → SegmentProcess
  | .append write retry payloads maxVersion =>
    if p.sealing = .idle then
      let r := append crc bincode write retry payloads maxVersion p.set
      { p with set := r.1, sealing := r.2 }
    else p
  | .fsync succeeds =>
    match p.sealing with
    | .captured record =>
      { p with
        set := (p.set.sync succeeds).2
        sealing := if succeeds then .synced record else .idle }
    | _ => p
  | .swap =>
    match p.sealing with
    | .synced record =>
      if p.set.activeSeq = record.seq then
        { p with set := p.set.swap record, sealing := .idle, sidecars := p.sidecars ++ [record] }
      else { p with sealing := .idle }
    | _ => p
  | .cancel => if p.sealing = .idle then p else { p with sealing := .abandoned }
  | .sidecar i succeeds =>
    match p.sidecars[i]? with
    | none => p
    | some record =>
      { p with
        set := if succeeds then p.set.writeSidecar crc record else p.set
        sidecars := p.sidecars.eraseIdx i }
  | .sync succeeds => { p with set := (p.set.sync succeeds).2 }
  | .truncate durable =>
    -- the gate of `truncate_below` is held until the last candidate was visited
    if p.cleanup = [] then { p with durable := durable, cleanup := p.set.candidates durable } else p
  | .unlink removal =>
    match p.cleanup with
    | [] => p
    | m :: ms =>
      { p with set := p.set.truncateOne removal.fileOk removal.sidecarOk m, cleanup := ms }
  | .crash nextCreated => restart crc bincode p.set nextCreated p
  | .crashInAppend failedFirst written payloads maxVersion =>
    if p.sealing = .idle then
      match admission bincode payloads maxVersion false with
      | .error _ => p
      | .ok _ =>
        restart crc bincode
          (tear crc written payloads (writingTo crc bincode failedFirst payloads maxVersion p.set))
          false p
    else p

/-- A process on an empty directory. -/
def start (dir : String) (maxBytes : Nat) : SegmentProcess :=
  ⟨SegmentSet.fresh dir maxBytes, .idle, [], 0, [], none⟩

/-! ## The calls as runs -/

/-- The steps of one `append_batch` call that is not interrupted. -/
def appendRun (write retry : Option Nat) (syncOk sidecarOk : Bool) (payloads : List Bytes)
    (maxVersion : UInt64) : List Event :=
  [.append write retry payloads maxVersion, .fsync syncOk, .swap, .sidecar 0 sidecarOk]

/-- Nothing is in flight. -/
def atRest (set : SegmentSet) (durable : UInt64) : SegmentProcess :=
  ⟨set, .idle, [], durable, [], none⟩

variable (set : SegmentSet) (durable : UInt64)

/-- The sealing steps of a captured record are `seal_and_rotate`. -/
theorem run_seal_captured (hfull : ¬set.active.bytesWritten < set.maxBytes)
    (syncOk sidecarOk : Bool) :
    run (step crc bincode) { atRest set durable with sealing := .captured set.sealRecord }
      [.fsync syncOk, .swap, .sidecar 0 sidecarOk] =
      atRest (set.sealAndRotate crc syncOk sidecarOk).2 durable := by
  rw [SegmentSet.sealAndRotate, if_neg hfull]
  cases syncOk with
  | false =>
    -- a failed fsync ends the call, and the steps after it find nothing to do
    rfl
  | true =>
    cases sidecarOk <;>
      simp [step, atRest, SegmentSet.sync, WalSegment.sync, SegmentSet.sealRecord]

/-- **An append is a run**: its steps, uninterrupted, leave the set as `append_batch` does. -/
theorem run_append (write retry : Option Nat) (syncOk sidecarOk : Bool) (payloads : List Bytes)
    (maxVersion : UInt64) :
    run (step crc bincode) (atRest set durable)
      (appendRun write retry syncOk sidecarOk payloads maxVersion) =
      atRest (set.appendBatch crc bincode ⟨outcome write, syncOk, sidecarOk, outcome retry⟩
        payloads maxVersion).2 durable := by
  have hstep : step crc bincode (atRest set durable) (.append write retry payloads maxVersion) =
      { atRest (append crc bincode write retry payloads maxVersion set).1 durable with
        sealing := (append crc bincode write retry payloads maxVersion set).2 } := by
    rfl
  rw [appendRun, run_cons, hstep, SegmentSet.appendBatch, append, SegmentSet.appendActive,
    ← SegmentSet.unpoisoned]
  obtain ⟨result, active, hfirst⟩ : ∃ result active,
      set.unpoisoned.active.appendBatch crc bincode (outcome write) payloads maxVersion =
        (result, active) := ⟨_, _, rfl⟩
  simp only [attempt, hfirst]
  cases result with
  | ok last =>
    simp only
    split
    case isTrue hfull =>
      refine (run_seal_captured crc bincode _ durable (not_lt.2 hfull) syncOk sidecarOk).trans ?_
      split <;> simp_all
    -- with no record captured, the sealing steps do nothing
    case isFalse hroom => rfl
  | error e =>
    simp only
    split <;> rfl

/-- **A truncation is a run**: starting it and visiting every candidate leaves the set as
`truncate_below` does. -/
theorem run_truncate (d : UInt64) (unlinks : Nat → SegmentSet.Unlink) :
    run (step crc bincode) (atRest set durable)
      (.truncate d :: (set.candidates d).map fun m => .unlink (unlinks m.seq)) =
      atRest (set.truncateBelow unlinks d).2 d := by
  have hloop : ∀ (ms : List SealedMeta) (set : SegmentSet) (tally : SegmentSet.Tally),
      run (step crc bincode) { atRest set d with cleanup := ms }
        (ms.map fun m => .unlink (unlinks m.seq)) =
        atRest (SegmentSet.truncateLoop unlinks ms tally set).2 d := by
    intro ms
    induction ms with
    | nil =>
      intro set tally
      rfl
    | cons m ms ih =>
      intro set tally
      exact ih (set.truncateOne (unlinks m.seq).fileOk (unlinks m.seq).sidecarOk m) _
  rw [run_cons, SegmentSet.truncateBelow]
  refine (hloop _ set ⟨0, 0, none⟩).trans ?_
  split <;> rfl

/-- A whole call, with what its system calls do; the rollback of a failed write succeeds. -/
inductive Call where
  | append (write retry : Option Nat) (syncOk sidecarOk : Bool) (payloads : List Bytes)
      (maxVersion : UInt64)
  | sync (succeeds : Bool)
  | truncate (durable : UInt64) (unlinks : Nat → SegmentSet.Unlink)

/-- The set after `append_batch`, `sync` or `truncate_below`. -/
def Call.effect (set : SegmentSet) : Call → SegmentSet
  | .append write retry syncOk sidecarOk payloads maxVersion =>
    (set.appendBatch crc bincode ⟨outcome write, syncOk, sidecarOk, outcome retry⟩ payloads
      maxVersion).2
  | .sync succeeds => (set.sync succeeds).2
  | .truncate durable unlinks => (set.truncateBelow unlinks durable).2

/-- **The steps cover the calls**: what any sequence of calls whose rollbacks succeed does to a
set, a process at rest does in steps, and is at rest after them. -/
theorem run_calls (calls : List Call) : ∃ es d,
    run (step crc bincode) (atRest set durable) es =
      atRest (calls.foldl (Call.effect crc bincode) set) d := by
  induction calls generalizing set durable with
  | nil => exact ⟨[], durable, rfl⟩
  | cons call calls ih =>
    obtain ⟨first, d, hfirst⟩ : ∃ es d, run (step crc bincode) (atRest set durable) es =
        atRest (Call.effect crc bincode set call) d := by
      cases call with
      | append => exact ⟨_, _, run_append crc bincode set durable _ _ _ _ _ _⟩
      | sync succeeds => exact ⟨[.sync succeeds], _, rfl⟩
      | truncate => exact ⟨_, _, run_truncate crc bincode set durable _ _⟩
    obtain ⟨rest, d', hrest⟩ := ih (Call.effect crc bincode set call) d
    refine ⟨first ++ rest, d', ?_⟩
    rw [Machine.run_append, hfirst, hrest, List.foldl_cons]

end SegmentProcess

end ShamirDb
