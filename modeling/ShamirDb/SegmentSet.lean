/-
# The segment set

A directory of log segments: one active segment takes the appends, full or poisoned
segments are rotated out and become sealed, and `truncate_below` unlinks sealed
segments the drained history no longer needs.  This file is the code's own model:
`SegmentSet::open` over a directory, `append_batch` with every failure its system calls
can have, the steps of the two rotations, strict and lenient replay, and truncation.

The model is sequential in its appends, as the group-commit leader is the only writer
of a set; the steps of a rotation are separate functions, so that crashes and
truncations can fall between them.
-/
import Mathlib.Data.List.Sort
import ShamirDb.SegmentMeta
import ShamirDb.WalSegment

namespace ShamirDb

open Function

variable {Body : Type} (crc : Bytes → UInt32) (bincode : Bincode Body)

/-- The record of a sealed segment.  `synced` says its bytes are known to have had an
fsync. -/
structure SealedMeta where
  seq : Nat
  maxVersion : UInt64
  pinned : Bool
  synced : Bool
  deriving DecidableEq

/-- The segment files and sidecars of a directory, by sequence number. -/
structure Directory where
  wal : List (Nat × Bytes)
  metas : Nat → Option Bytes

/-- A segment set.  The active segment owns its file; `closed` are the other segment
files of the directory and `metas` its sidecars. -/
structure SegmentSet where
  dir : String
  maxBytes : Nat
  sealed : List SealedMeta
  active : WalSegment
  activeSeq : Nat
  closed : List (Nat × Bytes)
  metas : Nat → Option Bytes

namespace SegmentSet

/-- `seg_file_name`: the sequence number padded to eight digits. -/
def segFileName (seq : Nat) : String :=
  let digits := toString seq
  "".pushn '0' (8 - digits.length) ++ digits ++ ".wal"

/-- The debug rendering of a segment's path. -/
def segPath (dir : String) (seq : Nat) : String := "\"" ++ dir ++ "/" ++ segFileName seq ++ "\""

/-- `retention_summary`: the maximum version and whether some entry is unversioned. -/
def retentionSummary (entries : List (WalEntryV2 Body)) : UInt64 × Bool :=
  WalSegment.summary entries 0 false

/-- `segment_meta::read_blocking`: the sidecar of a segment, if it is valid. -/
def readMeta (metas : Nat → Option Bytes) (seq : Nat) : Option (UInt64 × Option Bool) :=
  (metas seq).bind (SegmentMeta.decode crc)

/-! ## Opening a directory -/

/-- The metadata of a segment that is not the highest: from a `WMT3` sidecar, otherwise
from a strict replay. -/
def openSealed (dir : String) (metas : Nat → Option Bytes) (seq : Nat) (file : Bytes) :
    DbResult SealedMeta :=
  match readMeta crc metas seq with
  | some (maxVersion, some pinned) => .ok ⟨seq, maxVersion, pinned, false⟩
  | _ =>
    match WalSegment.replayInner crc bincode true (segPath dir seq) file with
    | .error e => .error e
    | .ok entries =>
      .ok ⟨seq, (retentionSummary entries).1, (retentionSummary entries).2, false⟩

/-- The loop of `open` over the segments below the highest. -/
def openOlder (dir : String) (metas : Nat → Option Bytes) :
    List (Nat × Bytes) → DbResult (List SealedMeta)
  | [] => .ok []
  | (seq, file) :: files =>
    match openSealed crc bincode dir metas seq file with
    | .error e => .error e
    | .ok sealed =>
      match openOlder dir metas files with
      | .error e => .error e
      | .ok rest => .ok (sealed :: rest)

/-- The end of `open`: repair and replay the active segment, restore its retention
counters and shed a stray sidecar. -/
def activate (dir : String) (maxBytes : Nat) (sealed : List SealedMeta)
    (closed : List (Nat × Bytes)) (metas : Nat → Option Bytes) (seq : Nat) (file : Bytes) :
    DbResult SegmentSet :=
  match WalSegment.repairTornTail crc (WalSegment.open (segPath dir seq) file) with
  | .error e => .error e
  | .ok active =>
    match WalSegment.replay crc bincode active with
    | .error e => .error e
    | .ok entries =>
      let restored := { active with
        maxCommitted := max active.maxCommitted (retentionSummary entries).1
        retentionPin := active.retentionPin || (retentionSummary entries).2 }
      .ok ⟨dir, maxBytes, sealed, restored, seq, closed, update metas seq none⟩

/-- `SegmentSet::open`.  The highest segment is the active one unless it has a valid
sidecar: then it is sealed, and the next number becomes active. -/
def «open» (dir : String) (maxBytes : Nat) (d : Directory) : DbResult SegmentSet :=
  let files := d.wal.mergeSort (fun a b => a.1 ≤ b.1)
  if ¬(files.map Prod.fst).Nodup then
    .error (.storage "SegmentSet contains multiple filenames for the same segment sequence")
  else
    match files.getLast? with
    | none => .ok ⟨dir, maxBytes, [], WalSegment.open (segPath dir 0) [], 0, [], d.metas⟩
    | some (seq, file) =>
      match openOlder crc bincode dir d.metas files.dropLast with
      | .error e => .error e
      | .ok older =>
        match readMeta crc d.metas seq with
        | none => activate crc bincode dir maxBytes older files.dropLast d.metas seq file
        | some (maxVersion, some pinned) =>
          activate crc bincode dir maxBytes (older ++ [⟨seq, maxVersion, pinned, true⟩]) files
            d.metas (seq + 1) []
        | some (_, none) =>
          match WalSegment.replayInner crc bincode true (segPath dir seq) file with
          | .error e => .error e
          | .ok entries =>
            activate crc bincode dir maxBytes
              (older ++ [⟨seq, (retentionSummary entries).1, (retentionSummary entries).2, true⟩])
              files d.metas (seq + 1) []

/-- The directory as a stopped process leaves it. -/
def image (set : SegmentSet) : Directory :=
  ⟨set.closed ++ [(set.activeSeq, set.active.file)], set.metas⟩

/-! ## Rotation -/

/-- Move the active segment to the sealed ones, under the given record, and start a fresh
active segment. -/
def swap (set : SegmentSet) (sealed : SealedMeta) : SegmentSet :=
  { set with
    sealed := set.sealed ++ [sealed]
    closed := set.closed ++ [(set.activeSeq, set.active.file)]
    active := WalSegment.open (segPath set.dir (set.activeSeq + 1)) []
    activeSeq := set.activeSeq + 1 }

/-- `rotate_after_poison`: the poisoned segment loses any sidecar and is sealed without
an fsync. -/
def rotateAfterPoison (set : SegmentSet) : SegmentSet :=
  let cleaned := { set with metas := update set.metas set.activeSeq none }
  cleaned.swap ⟨set.activeSeq, set.active.maxCommitted, set.active.retentionPin, false⟩

/-- The record `seal_and_rotate` captures before its fsync. -/
def sealRecord (set : SegmentSet) : SealedMeta :=
  ⟨set.activeSeq, set.active.maxCommitted, set.active.retentionPin, true⟩

/-- The sidecar write of `seal_and_rotate`. -/
def writeSidecar (set : SegmentSet) (sealed : SealedMeta) : SegmentSet :=
  { set with
    metas := update set.metas sealed.seq
      (some (SegmentMeta.encode crc sealed.maxVersion sealed.pinned)) }

/-- `seal_and_rotate`: fsync the active segment, swap in a fresh one, then write the
sidecar, whose failure is only logged. -/
def sealAndRotate (syncOk sidecarOk : Bool) (set : SegmentSet) : DbResult Unit × SegmentSet :=
  if set.active.bytesWritten < set.maxBytes then (.ok (), set)
  else
    match set.active.sync syncOk with
    | (.error e, active) => (.error e, { set with active := active })
    | (.ok (), active) =>
      let swapped := { set with active := active }.swap set.sealRecord
      (.ok (), if sidecarOk then swapped.writeSidecar crc set.sealRecord else swapped)

/-! ## Appending -/

/-- What the system calls of one `append_batch` do. -/
structure AppendFaults where
  write : WriteOutcome
  syncOk : Bool
  sidecarOk : Bool
  retryWrite : WriteOutcome
  deriving DecidableEq

/-- The first attempt of `append_batch` on an active segment that is not poisoned, with
the rotation of a full segment and the one retry after a failure that poisoned it. -/
def appendActive (faults : AppendFaults) (set : SegmentSet) (payloads : List Bytes)
    (maxVersion : UInt64) : DbResult Nat × SegmentSet :=
  match set.active.appendBatch crc bincode faults.write payloads maxVersion with
  | (.ok last, active) =>
    let written := { set with active := active }
    if set.maxBytes ≤ active.bytesWritten then
      match written.sealAndRotate crc faults.syncOk faults.sidecarOk with
      | (.error e, rotated) => (.error e, rotated)
      | (.ok (), rotated) => (.ok last, rotated)
    else (.ok last, written)
  | (.error e, active) =>
    let failed := { set with active := active }
    if active.poisoned then
      let rotated := failed.rotateAfterPoison
      let r := rotated.active.appendBatch crc bincode faults.retryWrite payloads maxVersion
      (r.1, { rotated with active := r.2 })
    else (.error e, failed)

/-- `SegmentSet::append_batch`. -/
def appendBatch (faults : AppendFaults) (set : SegmentSet) (payloads : List Bytes)
    (maxVersion : UInt64) : DbResult Nat × SegmentSet :=
  let fresh := if set.active.poisoned then set.rotateAfterPoison else set
  fresh.appendActive crc bincode faults payloads maxVersion

/-! ## Replay and truncation -/

/-- `replay_path` of a sealed segment; a file that is gone replays as empty. -/
def replaySealed (set : SegmentSet) (seq : Nat) : DbResult (List (WalEntryV2 Body)) :=
  match set.closed.lookup seq with
  | none => .ok []
  | some file => WalSegment.replayInner crc bincode true (segPath set.dir seq) file

/-- The loop of `replay` over the sealed segments. -/
def replayAll (set : SegmentSet) : List SealedMeta → DbResult (List (WalEntryV2 Body))
  | [] => .ok []
  | m :: ms =>
    match set.replaySealed crc bincode m.seq with
    | .error e => .error e
    | .ok entries =>
      match set.replayAll ms with
      | .error e => .error e
      | .ok rest => .ok (entries ++ rest)

/-- `SegmentSet::replay`: the sealed segments in sequence order, then the active one. -/
def replay (set : SegmentSet) : DbResult (List (WalEntryV2 Body)) :=
  match set.replayAll crc bincode (set.sealed.mergeSort (fun a b => a.seq ≤ b.seq)) with
  | .error e => .error e
  | .ok entries =>
    match WalSegment.replay crc bincode set.active with
    | .error e => .error e
    | .ok rest => .ok (entries ++ rest)

/-- A sealed segment `truncate_below(durableVersion)` may unlink. -/
def truncatable (durableVersion : UInt64) (m : SealedMeta) : Bool :=
  !m.pinned && 0 < m.maxVersion && m.maxVersion ≤ durableVersion

/-- The candidates `truncate_below` collects under the lock. -/
def candidates (set : SegmentSet) (durableVersion : UInt64) : List SealedMeta :=
  set.sealed.filter (truncatable durableVersion)

/-- One round of the unlink loop.  `unlinkOk` is whether the system removes the file,
`sidecarOk` whether it removes the sidecar; a file that is already gone counts as
removed. -/
def truncateOne (unlinkOk sidecarOk : Bool) (set : SegmentSet) (m : SealedMeta) : SegmentSet :=
  if (set.closed.lookup m.seq).isSome && !unlinkOk then set
  else
    { set with
      sealed := set.sealed.filter (fun other => other.seq ≠ m.seq)
      closed := set.closed.filter (fun file => file.1 ≠ m.seq)
      metas := if sidecarOk then update set.metas m.seq none else set.metas }

/-- What the system does with the two removals of one segment. -/
structure Unlink where
  fileOk : Bool
  sidecarOk : Bool
  deriving DecidableEq

/-- What the unlink loop of `truncate_below` counts. -/
structure Tally where
  deleted : Nat
  failures : Nat
  firstFailure : Option String
  deriving DecidableEq

/-- The tally after the round on `m`: a file that is already gone is neither deleted nor
a failure. -/
def Tally.count (set : SegmentSet) (m : SealedMeta) (unlink : Unlink) (tally : Tally) : Tally :=
  if (set.closed.lookup m.seq).isNone then tally
  else if unlink.fileOk then { tally with deleted := tally.deleted + 1 }
  else { tally with
    failures := tally.failures + 1
    firstFailure := tally.firstFailure.or (some (segPath set.dir m.seq)) }

/-- The unlink loop of `truncate_below` over the collected candidates. -/
def truncateLoop (unlinks : Nat → Unlink) :
    List SealedMeta → Tally → SegmentSet → Tally × SegmentSet
  | [], tally, set => (tally, set)
  | m :: ms, tally, set =>
    truncateLoop unlinks ms (tally.count set m (unlinks m.seq))
      (set.truncateOne (unlinks m.seq).fileOk (unlinks m.seq).sidecarOk m)

/-- `SegmentSet::truncate_below`: the number of deleted segments, or an error that reports
the failed removals. -/
def truncateBelow (unlinks : Nat → Unlink) (set : SegmentSet) (durableVersion : UInt64) :
    DbResult Nat × SegmentSet :=
  let r := truncateLoop unlinks (set.candidates durableVersion) ⟨0, 0, none⟩ set
  match r.1.firstFailure with
  | some path => (.error (.io
      s!"SegmentSet truncate: {r.1.deleted} deleted, {r.1.failures} failed; first failure {path}"), r.2)
  | none => (.ok r.1.deleted, r.2)

/-- `SegmentSet::sync` makes the active segment durable, and only it. -/
def sync (syncOk : Bool) (set : SegmentSet) : DbResult Unit × SegmentSet :=
  let r := set.active.sync syncOk
  (r.1, { set with active := r.2 })

end SegmentSet

end ShamirDb
