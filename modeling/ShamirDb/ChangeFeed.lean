/-
# The journal of the changefeed

A commit hands its event to the journal before its version completes.  The journal is
written by one task that takes messages from a bounded channel; it collects events in a batch
and writes them to the store, marking a gap for those that fail.  An event that finds the
channel full is deferred: its version goes into the set `pending`, and a drainer sends it
again later and retires the version.  `min_version` mirrors the least pending version: the
recorder of a version lowers it in a compare-and-swap loop, and whoever removes one scans the
set and stores what the scan found.

A pull samples the completion watermark `w`, sends a barrier `w` through the same channel
and waits until the writer has confirmed it.  The writer confirms a barrier only below the
least pending version (`clamp_barrier`).  The pull then reads the store up to what is
confirmed and looks for a gap.

Every access to shared state is a step.  The scan of the pending set visits the versions one
by one; which of those that come and go meanwhile it meets is left open.  A channel slot that
was granted to a waiting barrier counts as taken (`permits`).  Left out are the durability of
the gap marker, records installed by a follower and entries of the store that do not decode,
for which a pull reports a gap.
-/
import ShamirDb.BarrierLine
import ShamirDb.TaskList
import ShamirDb.Machine

namespace ShamirDb.ChangeFeed

open Machine BarrierLine

/-! ## The parties -/

/-- A version of the gate: its event, if it committed with one, and if it is completed. -/
structure Version (E : Type*) where
  event : Option E
  completed : Bool
  deriving DecidableEq

/-- Where an admission of an event is.  A drainer starts with the probe of the store, a
commit with the attempt to send.  `casing` holds the value of `min_version` it expects,
`scanning` the least version the scan has met. -/
inductive Stage where
  | probing
  | sending
  | inserting
  | loading
  | casing (cur : Nat)
  | removing
  | scanning (least : Nat)
  | returned
  deriving DecidableEq

/-- `journal_enqueue` of a commit, or the drainer's work on one version. -/
structure Task (E : Type*) where
  version : Nat
  event : E
  drain : Bool
  stage : Stage
  deriving DecidableEq

/-- An event of the batch; `written` once the store has it. -/
structure Entry (E : Type*) where
  version : Nat
  event : E
  written : Bool
  deriving DecidableEq

/-- The writer takes messages, or has a barrier before it, or the barrier's clamped value. -/
inductive Writer where
  | idle
  | holding (w : Nat)
  | confirming (w : Nat)
  deriving DecidableEq

/-- What a bounded pull returns. -/
structure JournalRead (E : Type*) where
  bound : Nat
  events : List (Nat × E)
  gapAt : Option Nat
  deriving DecidableEq

/-- Where a pull is: with its sampled watermark, a granted slot, waiting for the
confirmation, reading the store from `cursor` on, before the look at the gap, or over. -/
inductive PullStage (E : Type*) where
  | sampled (w : Nat)
  | reserved (w : Nat)
  | waiting (w : Nat)
  | reading (bound cursor : Nat) (raw : List (Nat × E))
  | read (bound : Nat) (events : List (Nat × E))
  | done (result : JournalRead E)
  deriving DecidableEq

structure Pull (E : Type*) where
  fromVersion : Nat
  limit : Nat
  stage : PullStage E
  deriving DecidableEq

structure Feed (E : Type*) where
  /-- The versions assigned so far; version `v` is at `v - 1`. -/
  versions : List (Version E)
  tasks : List (Task E)
  queue : List (Msg E)
  permits : Nat
  closed : Bool
  batch : List (Entry E)
  writer : Writer
  store : Nat → Option E
  gap : Option (Nat × Nat)
  pending : List Nat
  minVersion : Nat
  confirmed : Nat
  pulls : List (Pull E)

inductive Event (E : Type*) where
  /-- A version is assigned; without an event it aborts or has nothing to emit. -/
  | assign (event : Option E)
  | complete (v : Nat)
  /-- The drainer found `v` in its snapshot of the pending set. -/
  | drain (v : Nat)
  /-- The next access of an admission. -/
  | access (i : Nat)
  /-- The drainer cannot derive the event from the WAL. -/
  | unrepairable (i : Nat)
  /-- The scan of an admission meets the version `k`. -/
  | visit (i : Nat) (k : Nat)
  | take
  /-- The store writes an event of the batch. -/
  | put (j : Nat)
  /-- The result for the first event of the batch. -/
  | result (ok : Bool)
  | clamp
  | confirm
  | close
  /-- A gap that was found elsewhere. -/
  | recordGap (first through : Nat)
  | pull (fromVersion limit : Nat)
  | reserve (i : Nat)
  | barrier (i : Nat)
  /-- The pull sees its watermark confirmed. -/
  | confirmed (i : Nat) (clamp : Option Nat)
  /-- The pull runs out of time, or the writer is gone. -/
  | giveUp (i : Nat) (clamp : Option Nat)
  /-- The range read comes to the entry of version `v`. -/
  | scan (i : Nat) (v : Nat)
  /-- The range read ends: no more entries, the limit or the byte budget. -/
  | stop (i : Nat)
  | rangeFails (i : Nat)
  | check (i : Nat)
  deriving DecidableEq

variable {E : Type*}

/-! ## The state -/

namespace Feed

/-- The event of a version, if it has one. -/
def event (s : Feed E) (v : Nat) : Option E :=
  if v = 0 then none else s.versions[v - 1]?.bind Version.event

/-- The completion watermark: all versions up to it are completed. -/
def watermark (s : Feed E) : Nat := (s.versions.takeWhile Version.completed).length

def hasRoom (capacity : Nat) (s : Feed E) : Bool := decide (s.queue.length + s.permits < capacity)

/-- `journal_enqueue` of the commit has returned, or there was nothing to enqueue. -/
def emitted (s : Feed E) (v : Nat) : Bool :=
  (s.event v).isNone || s.tasks.any fun t => t.version == v && !t.drain && t.stage == .returned

def setTask (s : Feed E) (i : Nat) (t : Task E) : Feed E := { s with tasks := s.tasks.set i t }

def setPull (s : Feed E) (i : Nat) (p : Pull E) : Feed E := { s with pulls := s.pulls.set i p }

end Feed

/-- `merge_gap`. -/
def mergeGap : Option (Nat × Nat) → Nat × Nat → Nat × Nat
  | none, gap => gap
  | some old, gap => (min old.1 gap.1, max old.2 gap.2)

def markGap (s : Feed E) (v : Nat) : Feed E :=
  { s with gap := some (mergeGap s.gap (max v 1, max v 1)) }

/-- `clamp_barrier`: 0 stands for an empty set. -/
def clampBarrier (s : Feed E) (w : Nat) : Nat :=
  if s.minVersion = 0 then w else min w (s.minVersion - 1)

/-! ## Admissions -/

/-- The loop of `record_channel_full` goes on while the value seen is 0 or above `v`. -/
def retry (v cur : Nat) : Stage := if cur = 0 ∨ v < cur then .casing cur else .returned

/-- The accumulator of `recompute_min`. -/
def least (acc k : Nat) : Nat := if acc = 0 then k else min acc k

/-- One access of the admission `t`, which is number `i`. -/
def access (capacity : Nat) (s : Feed E) (i : Nat) (t : Task E) : Feed E :=
  match t.stage with
  | .probing =>
    s.setTask i { t with stage := if (s.store t.version).isSome then .removing else .sending }
  | .sending =>
    if s.closed then (markGap s t.version).setTask i { t with stage := .removing }
    else if s.hasRoom capacity then
      { s.setTask i { t with stage := if t.drain then .removing else .returned } with
        queue := s.queue ++ [.event t.version t.event] }
    else s.setTask i { t with stage := .inserting }
  | .inserting =>
    if t.version ∈ s.pending then s.setTask i { t with stage := .returned }
    else { s.setTask i { t with stage := .loading } with pending := t.version :: s.pending }
  | .loading => s.setTask i { t with stage := retry t.version s.minVersion }
  | .casing cur =>
    if s.minVersion = cur then
      { s.setTask i { t with stage := .returned } with minVersion := t.version }
    else s.setTask i { t with stage := retry t.version s.minVersion }
  | .removing =>
    if t.version ∈ s.pending then
      { s.setTask i { t with stage := .scanning 0 } with
        pending := s.pending.filter (· ≠ t.version) }
    else s.setTask i { t with stage := .returned }
  | .scanning acc => { s.setTask i { t with stage := .returned } with minVersion := acc }
  | .returned => s

/-! ## Pulls -/

/-- `read_changelog_bounded_impl` lowers what was confirmed to its own watermark and to the
clamp of a replication reader. -/
def boundOf (through w : Nat) (clamp : Option Nat) : Nat :=
  match clamp with
  | none => min through w
  | some r => min (min through w) r

/-- The end of `read_from_bounded`. -/
def gapAt (gap : Option (Nat × Nat)) (fromVersion : Nat) : Option Nat :=
  match gap with
  | some (first, through) => if fromVersion ≤ through then some (max fromVersion first) else none
  | none => none

def Pull.startReading (p : Pull E) (bound : Nat) : Pull E :=
  { p with stage := .reading bound p.fromVersion [] }

/-- Is `v` the next entry of the store from `cursor` on? -/
def isNext (s : Feed E) (cursor v : Nat) : Bool :=
  decide (cursor ≤ v) && (List.range' cursor (v - cursor)).all fun u => (s.store u).isNone

/-- A step of the pull `p`, which is number `i`. -/
def pullStep (capacity : Nat) (s : Feed E) (i : Nat) (p : Pull E) (e : Event E) : Feed E :=
  match e, p.stage with
  | .reserve _, .sampled w =>
    if s.hasRoom capacity && !s.closed then
      { s.setPull i { p with stage := .reserved w } with permits := s.permits + 1 }
    else s
  | .barrier _, .reserved w =>
    if s.closed then s
    else { s.setPull i { p with stage := .waiting w } with
            queue := s.queue ++ [.barrier w], permits := s.permits - 1 }
  | .confirmed _ clamp, .sampled w | .confirmed _ clamp, .waiting w =>
    if w ≤ s.confirmed then s.setPull i (p.startReading (boundOf w w clamp)) else s
  | .giveUp _ clamp, .sampled w | .giveUp _ clamp, .waiting w =>
    s.setPull i (p.startReading (boundOf s.confirmed w clamp))
  | .giveUp _ clamp, .reserved w =>
    { s.setPull i (p.startReading (boundOf s.confirmed w clamp)) with permits := s.permits - 1 }
  | .scan _ v, .reading bound cursor raw =>
    match s.store v with
    | some event =>
      if raw.length < p.limit && isNext s cursor v then
        s.setPull i { p with stage := .reading bound (v + 1) (raw ++ [(v, event)]) }
      else s
    | none => s
  | .stop _, .reading bound _ raw =>
    s.setPull i { p with stage := .read bound (raw.takeWhile fun x => decide (x.1 ≤ bound)) }
  | .rangeFails _, .reading bound _ _ =>
    s.setPull i { p with stage := .done ⟨bound, [], some p.fromVersion⟩ }
  | .check _, .read bound events =>
    s.setPull i { p with stage := .done ⟨bound, events, gapAt s.gap p.fromVersion⟩ }
  | _, _ => s

/-! ## The machine -/

def Feed.onTask (s : Feed E) (i : Nat) (f : Task E → Feed E) : Feed E :=
  match s.tasks[i]? with
  | some t => f t
  | none => s

def Feed.onPull (s : Feed E) (i : Nat) (f : Pull E → Feed E) : Feed E :=
  match s.pulls[i]? with
  | some p => f p
  | none => s

/-- The writer takes the next message. -/
def takeMsg (s : Feed E) : Feed E :=
  match s.writer, s.queue with
  | .idle, .event v event :: rest =>
    { s with queue := rest, batch := s.batch ++ [⟨v, event, false⟩] }
  | .idle, .barrier w :: rest => { s with queue := rest, writer := .holding w }
  | _, _ => s

def putEntry (s : Feed E) (j : Nat) : Feed E :=
  match s.batch[j]? with
  | some b => { s with
      store := Function.update s.store b.version (some b.event)
      batch := s.batch.set j { b with written := true } }
  | none => s

/-- A result is a success only if the write was made. -/
def takeResult (s : Feed E) (ok : Bool) : Feed E :=
  match s.batch with
  | b :: rest =>
    if ok && b.written then { s with batch := rest } else { markGap s b.version with batch := rest }
  | [] => s

def step (capacity : Nat) (s : Feed E) (e : Event E) : Feed E :=
  match e with
  | .assign none => { s with versions := s.versions ++ [⟨none, false⟩] }
  | .assign (some event) => { s with
      versions := s.versions ++ [⟨some event, false⟩]
      tasks := s.tasks ++ [⟨s.versions.length + 1, event, false, .sending⟩] }
  | .complete v =>
    if v ≠ 0 ∧ s.emitted v = true then
      { s with versions := s.versions.modify (v - 1) fun x => { x with completed := true } }
    else s
  | .drain v =>
    match s.event v with
    | some event =>
      if v ∈ s.pending then { s with tasks := s.tasks ++ [⟨v, event, true, .probing⟩] } else s
    | none => s
  | .access i => s.onTask i (access capacity s i)
  | .unrepairable i => s.onTask i fun t =>
      if t.stage = .probing then
        (markGap s t.version).setTask i { t with stage := .removing }
      else s
  | .visit i k => s.onTask i fun t =>
      match t.stage with
      | .scanning acc =>
        if k ∈ s.pending then s.setTask i { t with stage := .scanning (least acc k) } else s
      | _ => s
  | .take => takeMsg s
  | .put j => putEntry s j
  | .result ok => takeResult s ok
  | .clamp =>
    match s.writer, s.batch with
    | .holding w, [] => { s with writer := .confirming (clampBarrier s w) }
    | _, _ => s
  | .confirm =>
    match s.writer with
    | .confirming w => { s with writer := .idle, confirmed := max s.confirmed w }
    | _ => s
  | .close =>
    match s.writer, s.batch with
    | .idle, [] => { s with closed := true, queue := [] }
    | _, _ => s
  | .recordGap first through => { s with gap := some (mergeGap s.gap (first, through)) }
  | .pull fromVersion limit =>
    { s with pulls := s.pulls ++ [⟨fromVersion, limit, .sampled s.watermark⟩] }
  | .reserve i | .barrier i | .confirmed i _ | .giveUp i _ | .scan i _ | .stop i
  | .rangeFails i | .check i => s.onPull i fun p => pullStep capacity s i p e

/-- A new feed with the gap that was restored. -/
def opened (gap : Option (Nat × Nat)) : Feed E :=
  ⟨[], [], [], 0, false, [], .idle, fun _ => none, gap, [], 0, 0, []⟩

/-- The events of the versions from `a` up to but not including `c`. -/
def eventsBetween (s : Feed E) (a c : Nat) : List (Nat × E) :=
  (List.range' a (c - a)).filterMap fun v => (s.event v).map fun event => (v, event)

end ShamirDb.ChangeFeed
