/-
# The group commit

`WalGroupCommit` batches appends: callers push their frames on a queue under a lock, one
of them wins the `flushing` flag and leads, taking the whole queue as a window and writing
it with one `append_batch`.  Callers learn the outcome through shared tickets.  A leader
that is cancelled, or that cannot tell what its write did, publishes `Unknown` for its
window and stops the group.  A sync coordinator next to it turns demands for durability
into rounds of a single worker.

The machine runs all of this one shared access at a time: the queue lock, the flags
`flushing` and `indeterminate`, the tickets, the generation counters, the system calls.
An event names who moves next and what the environment answers.
-/
import ShamirDb.FrameSink
import ShamirDb.WalEntry

namespace ShamirDb

open Function

/-! ## Tickets and requests -/

/-- The durability tier of an append. -/
inductive WalDurability where
  | buffered
  | synced
  deriving DecidableEq

/-- Observable progress of a frame. -/
inductive WalTicketState where
  | pending
  | written
  | acked
  | failed
  | unknown
  deriving DecidableEq

structure WalTicket where
  state : WalTicketState
  done : Bool
  deriving DecidableEq

/-- The outcomes of the ticketed API. -/
inductive WalAppendError where
  | notWritten
  | writtenNotDurable
  | unknown
  | indeterminate
  deriving DecidableEq

namespace WalTicket

def new : WalTicket := ⟨.pending, false⟩

/-- `written` publishes progress without completing the ticket. -/
def written (t : WalTicket) : WalTicket := { t with state := .written }

/-- `complete` acts once. -/
def complete (state : WalTicketState) (t : WalTicket) : WalTicket :=
  if t.done then t else ⟨state, true⟩

/-- `outcome`: `none` until the ticket is completed. -/
def outcome (t : WalTicket) : Option (Except WalAppendError Unit) :=
  if t.done then
    some (match t.state with
      | .acked => .ok ()
      | .failed => .error .notWritten
      | .written => .error .writtenNotDurable
      | .unknown => .error .unknown
      | .pending => .error .indeterminate)
  else none

end WalTicket

/-- The queue entries of one call.  They are pushed under one lock, so they stay together;
`append_many` shares one ticket among them. -/
structure WalRequest where
  ticket : Nat
  entries : List (Bytes × UInt64)
  durability : WalDurability
  deriving DecidableEq

/-- One frame of a request. -/
structure WalFrame where
  ticket : Nat
  index : Nat
  payload : Bytes
  version : UInt64
  deriving DecidableEq

/-- The frames of a request, in order. -/
def WalRequest.frames (r : WalRequest) : List WalFrame :=
  r.entries.mapIdx fun i entry => ⟨r.ticket, i, entry.1, entry.2⟩

/-- The frames of a window, as `append_batch` gets them. -/
def windowFrames (window : List WalRequest) : List WalFrame :=
  window.flatMap WalRequest.frames

/-! ## The sync coordinator -/

/-- A worker round: the generation it promises; once it has taken its snapshot, the files
it still has to fsync, the active one last; and during an fsync, the number of frames that
were in the file when it started. -/
structure SyncRound where
  target : Nat
  files : Option (List Nat)
  started : Option Nat
  deriving DecidableEq

/-- A `sync_now` call: how many windows were complete when it was made, the failure epoch
and the target it has read, and its result. -/
structure SyncDemand where
  issued : Nat
  epoch : Nat
  target : Option Nat
  result : Option Bool
  deriving DecidableEq

/-- `SyncCoordinator`: the counters demands and rounds meet in. -/
structure SyncCoordinator where
  writtenGeneration : Nat
  successful : Nat
  hasSuccess : Bool
  failureEpoch : Nat
  round : Option SyncRound
  demands : List SyncDemand
  deriving DecidableEq

/-- `covers`. -/
def SyncCoordinator.covers (c : SyncCoordinator) (target : Nat) : Bool :=
  c.hasSuccess && target ≤ c.successful

/-! ## The group -/

/-- Where a caller of `append_ticketed` or `append_many` stands after its push. -/
inductive CallPhase where
  | driving
  | electing
  | leading
  | parked
  | looked
  | rechecking
  | failing
  | returned (outcome : Except WalAppendError Unit)
  | cancelled
  deriving DecidableEq

/-- Where the holder of `flushing` stands.  `entering` to `swapping` are inside
`append_batch`; the last three are the drop of an armed guard. -/
inductive LeadStage where
  | looking
  | entering
  | first
  | checking
  | rotating
  | retrying
  | sealing
  | swapping
  | demanding (window : List WalRequest)
  | syncing (window : List WalRequest) (epoch target : Nat)
  | breaking
  | abandoning (metas : List WalRequest)
  | stopping
  | releasing
  deriving DecidableEq

/-- The leader's guard; `owner` is the call it runs in, if it is not the detached
continuation. -/
structure LeaderGuard where
  owner : Option Nat
  bounded : Bool
  windows : Nat
  stage : LeadStage
  deriving DecidableEq

/-- The state of a group commit over a file sink (`mem = false`) or a memory sink.
`hand` is the window the leader has taken and not yet published as written; it stays there
when the leader is abandoned.  `settled` are the windows published as written, `abandoned`
those published as unknown, and `floor` counts the windows that were complete when a
segment with completed frames was last rotated out unsynced; these three and `requests`
are bookkeeping for the statements. -/
structure WalGroup where
  mem : Bool
  observer : Bool
  sink : FrameSink WalFrame
  pending : List WalRequest
  flushing : Bool
  indeterminate : Bool
  tickets : Nat → WalTicket
  nextTicket : Nat
  phases : Nat → CallPhase
  leader : Option LeaderGuard
  hand : List WalRequest
  detached : Bool
  sync : SyncCoordinator
  requests : Nat → Option WalRequest
  settled : List (List WalRequest)
  abandoned : List (List WalRequest)
  floor : Nat

namespace WalGroup

/-- A new group on an empty sink. -/
def start (mem observer : Bool) : WalGroup where
  mem := mem
  observer := observer
  sink := FrameSink.empty
  pending := []
  flushing := false
  indeterminate := false
  tickets := fun _ => WalTicket.new
  nextTicket := 0
  phases := fun _ => .cancelled
  leader := none
  hand := []
  detached := false
  sync := ⟨0, 0, false, 0, none, []⟩
  requests := fun _ => none
  settled := []
  abandoned := []
  floor := 0

/-- Apply a ticket operation to every ticket of some requests. -/
def mark (requests : List WalRequest) (f : WalTicket → WalTicket) (tickets : Nat → WalTicket) :
    Nat → WalTicket :=
  fun t => if t ∈ requests.map WalRequest.ticket then f (tickets t) else tickets t

def setPhase (s : WalGroup) (t : Nat) (phase : CallPhase) : WalGroup :=
  { s with phases := update s.phases t phase }

def setStage (s : WalGroup) (guard : LeaderGuard) (stage : LeadStage) : WalGroup :=
  { s with leader := some { guard with stage := stage } }

/-! ### Callers -/

/-- The push of a call, under the queue lock. -/
def submit (s : WalGroup) (entries : List (Bytes × UInt64)) (durability : WalDurability) :
    WalGroup :=
  let r : WalRequest := ⟨s.nextTicket, entries, durability⟩
  { s with
    nextTicket := s.nextTicket + 1
    requests := update s.requests s.nextTicket (some r)
    pending := s.pending ++ [r]
    phases := update s.phases s.nextTicket .driving }

/-- The first poll of `append_ticketed`: an indeterminate group fails the ticket. -/
def appendTicketed (s : WalGroup) (payload : Bytes) (version : UInt64)
    (durability : WalDurability) : WalGroup :=
  if s.indeterminate then
    { s with
      nextTicket := s.nextTicket + 1
      requests := update s.requests s.nextTicket
        (some ⟨s.nextTicket, [(payload, version)], durability⟩)
      tickets := update s.tickets s.nextTicket ((s.tickets s.nextTicket).complete .failed)
      phases := update s.phases s.nextTicket (.returned (.error .indeterminate)) }
  else s.submit [(payload, version)] durability

/-- The first poll of `append_many`; its ticket is never seen outside unless it pushes. -/
def appendMany (s : WalGroup) (entries : List (Bytes × UInt64)) (durability : WalDurability) :
    WalGroup :=
  if s.indeterminate ∨ entries = [] then s else s.submit entries durability

/-- One access of `drive_and_wait` by the call of ticket `t`. -/
def driveAndWait (s : WalGroup) (t : Nat) : WalGroup :=
  match s.phases t with
  | .driving => s.setPhase t (if s.indeterminate then .parked else .electing)
  | .electing =>
    if s.flushing then s.setPhase t .parked
    else
      { s.setPhase t .leading with
        flushing := true
        leader := some ⟨some t, true, 0, .looking⟩ }
  | .parked =>
    match (s.tickets t).outcome with
    | some outcome => s.setPhase t (.returned outcome)
    | none => s.setPhase t .looked
  | .looked => s.setPhase t (if s.indeterminate then .rechecking else .parked)
  | .rechecking =>
    match (s.tickets t).outcome with
    | some outcome => s.setPhase t (.returned outcome)
    | none => s.setPhase t .failing
  | .failing =>
    { s.setPhase t (.returned (.error .indeterminate)) with
      tickets := update s.tickets t ((s.tickets t).complete .failed) }
  | _ => s

/-! ### The leader -/

/-- The call a leader runs in, if any, goes on: to its own wait loop, or it is gone. -/
def moveOwner (owner : Option Nat) (phase : CallPhase) (phases : Nat → CallPhase) :
    Nat → CallPhase :=
  match owner with
  | none => phases
  | some t => update phases t phase

/-- The start of a loop of `lead_until_drained`, under the queue lock: release, hand over
to the continuation after two windows, or take the queue. -/
def lead (s : WalGroup) (guard : LeaderGuard) : WalGroup :=
  if s.indeterminate ∨ s.pending = [] then
    { s with
      phases := moveOwner guard.owner .parked s.phases
      flushing := false
      leader := none }
  else if guard.bounded ∧ guard.windows = 2 then
    { s with
      phases := moveOwner guard.owner .parked s.phases
      leader := some ⟨none, false, 0, .looking⟩ }
  else
    { s with
      leader := some { guard with stage := .entering }
      hand := s.pending
      pending := [] }

/-- `append_batch` returned `Ok`: publish the window as written, acknowledge the buffered
calls, and go on to the fsync if some call asked for one. -/
def publish (s : WalGroup) (guard : LeaderGuard) : WalGroup :=
  let buffered := s.hand.filter fun r => r.durability = .buffered
  { s with
    tickets := mark buffered (WalTicket.complete .acked) (mark s.hand WalTicket.written s.tickets)
    sync := { s.sync with writtenGeneration := s.sync.writtenGeneration + 1 }
    settled := s.settled ++ [s.hand]
    hand := []
    leader := some { guard with
      stage := if s.hand.any (fun r => r.durability = .synced) then .demanding s.hand else .looking
      windows := if s.hand.any (fun r => r.durability = .synced) then guard.windows
        else guard.windows + 1 } }

/-- `append_batch` returned `Err`: a file sink proves nothing, so the guard is dropped
armed; a memory sink wrote nothing, so the window failed. -/
def reject (s : WalGroup) (guard : LeaderGuard) : WalGroup :=
  if s.mem then
    { s with
      tickets := mark s.hand (WalTicket.complete .failed) s.tickets
      hand := []
      leader := some { guard with stage := .breaking } }
  else s.setStage guard (.abandoning s.hand)

/-- The active segment holds a frame of a completed window that had no fsync since. -/
def activeUnsynced (s : WalGroup) : Bool :=
  (s.sink.active.frames.drop s.sink.active.durable).any fun f =>
    s.settled.flatten.any fun r => r.ticket = f.ticket

/-- The rotation of a poisoned segment.  Without an observer nothing will sync it again,
so if it holds unsynced frames of completed windows, the windows complete by now are below
the floor. -/
def rotatePoisoned (s : WalGroup) : WalGroup :=
  { s with
    sink := s.sink.rotate false
    floor := if s.activeUnsynced && !s.observer then s.sync.writtenGeneration else s.floor }

/-- One step inside `append_batch` of a file sink.  `write` is what the write call does,
`full` whether the segment then crosses its size threshold, `succeeds` what another system
call answers. -/
def appendStep (s : WalGroup) (guard : LeaderGuard) (write : FrameWrite) (full succeeds : Bool) :
    WalGroup :=
  match guard.stage with
  | .entering =>
    if s.sink.active.poisoned then
      if succeeds then s.rotatePoisoned.setStage guard .first else s.reject guard
    else s.setStage guard .first
  | .first =>
    let r := s.sink.attempt write (windowFrames s.hand)
    let t := { s with sink := r.2 }
    if r.1 then (if full then t.setStage guard .sealing else t.publish guard)
    else t.setStage guard .checking
  | .checking =>
    if s.sink.active.poisoned then s.setStage guard .rotating else s.reject guard
  | .rotating =>
    if succeeds then s.rotatePoisoned.setStage guard .retrying else s.reject guard
  | .retrying =>
    let r := s.sink.attempt write (windowFrames s.hand)
    let t := { s with sink := r.2 }
    if r.1 then t.publish guard else t.reject guard
  | .sealing =>
    -- the seal's fsync waits for a round that holds the sync gate
    if (s.sync.round.bind SyncRound.files).isSome then s
    else if succeeds then
      { s with sink := s.sink.fsyncActive }.setStage guard .swapping
    else { s with sink := s.sink.poison s.sink.activeSeq }.reject guard
  | .swapping =>
    if succeeds then { s with sink := s.sink.rotate true }.publish guard else s.reject guard
  | _ => s

/-- `append_batch` of a memory sink. -/
def memAppend (s : WalGroup) (guard : LeaderGuard) (succeeds : Bool) : WalGroup :=
  match guard.stage with
  | .entering =>
    if succeeds then { s with sink := s.sink.append (windowFrames s.hand) }.publish guard
    else s.reject guard
  | _ => s

/-- The fsync of a window is over: complete its synced calls. -/
def finishSync (s : WalGroup) (guard : LeaderGuard) (window : List WalRequest) (ok : Bool) :
    WalGroup :=
  let waiting := window.filter fun r => r.durability = .synced
  { s with
    tickets := mark waiting (WalTicket.complete (if ok then .acked else .written)) s.tickets
    leader := some { guard with
      stage := if ok then .looking else .breaking
      windows := if ok then guard.windows + 1 else guard.windows } }

/-- One step of the window's fsync. -/
def syncStep (s : WalGroup) (guard : LeaderGuard) (succeeds : Bool) : WalGroup :=
  match guard.stage with
  | .demanding window =>
    if s.mem then
      if succeeds then
        { s with sink := s.sink.fsyncActive }.finishSync guard window true
      else s.finishSync guard window false
    else s.setStage guard (.syncing window s.sync.failureEpoch s.sync.writtenGeneration)
  | .syncing window epoch target =>
    if s.sync.covers target then s.finishSync guard window true
    else if s.sync.failureEpoch ≠ epoch then s.finishSync guard window false
    else s
  | _ => s

/-- The circuit breaker: fail the queue and release, under the queue lock. -/
def drain (s : WalGroup) (guard : LeaderGuard) : WalGroup :=
  { s with
    phases := moveOwner guard.owner .parked s.phases
    tickets := mark s.pending (WalTicket.complete .failed) s.tickets
    pending := []
    flushing := false
    leader := none }

/-- The guard is dropped while it is armed: the call is cancelled at an await or the
runtime stops.  A write that was dispatched may still land. -/
def dropGuard (s : WalGroup) (guard : LeaderGuard) : WalGroup :=
  let cancelled := { s with phases := moveOwner guard.owner .cancelled s.phases }
  let orphan := { guard with owner := none }
  match guard.stage with
  | .looking | .breaking => cancelled.setStage orphan (.abandoning [])
  | .first | .retrying =>
    { cancelled with detached := true }.setStage orphan (.abandoning s.hand)
  | .entering | .checking | .rotating | .sealing | .swapping =>
    cancelled.setStage orphan (.abandoning s.hand)
  | .demanding window | .syncing window _ _ => cancelled.setStage orphan (.abandoning window)
  | .abandoning _ | .stopping | .releasing => s

/-- One step of the drop: publish `Unknown`, stop the group, release the flag.  The call whose
window was rejected then waits like the others. -/
def dropStep (s : WalGroup) (guard : LeaderGuard) : WalGroup :=
  match guard.stage with
  | .abandoning metas =>
    { s with
      tickets := mark metas (WalTicket.complete .unknown) s.tickets
      abandoned := s.abandoned ++ [metas]
      leader := some { guard with stage := .stopping } }
  | .stopping => { s with indeterminate := true, leader := some { guard with stage := .releasing } }
  | .releasing =>
    { s with
      phases := moveOwner guard.owner .parked s.phases
      flushing := false
      leader := none }
  | _ => s

/-- The blocking write of an abandoned window lands. -/
def land (s : WalGroup) (write : FrameWrite) : WalGroup :=
  if s.detached then
    { s with sink := (s.sink.attempt write (windowFrames s.hand)).2, detached := false }
  else s

/-! ### The worker and the demands -/

/-- A round starts: it reads the generation it will promise. -/
def roundStart (s : WalGroup) : WalGroup :=
  match s.sync.round with
  | some _ => s
  | none => { s with sync := { s.sync with round := some ⟨s.sync.writtenGeneration, none, none⟩ } }

/-- The files a round has to fsync: with an observer the sealed segments that are not
known to be synced, and the active one. -/
def roundFiles (s : WalGroup) : List Nat :=
  (if s.observer then (List.range s.sink.activeSeq).filter fun i => !s.sink.synced i else []) ++
    [s.sink.activeSeq]

/-- The round takes the sync gate and captures its files. -/
def roundCapture (s : WalGroup) : WalGroup :=
  match s.sync.round with
  | some ⟨target, none, _⟩ =>
    { s with sync := { s.sync with round := some ⟨target, some s.roundFiles, none⟩ } }
  | _ => s

/-- The next fsync of the round starts. -/
def roundFsync (s : WalGroup) : WalGroup :=
  match s.sync.round with
  | some ⟨target, some (seq :: files), none⟩ =>
    { s with sync := { s.sync with
      round := some ⟨target, some (seq :: files), some (s.sink.segments seq).frames.length⟩ } }
  | _ => s

/-- The round is over and failed. -/
def roundFail (s : WalGroup) : WalGroup :=
  match s.sync.round with
  | none => s
  | some _ =>
    { s with sync := { s.sync with round := none, failureEpoch := s.sync.failureEpoch + 1 } }

/-- An fsync of the round returns; the last one is the active segment's and ends the
round. -/
def roundSync (s : WalGroup) (succeeds : Bool) : WalGroup :=
  match s.sync.round with
  | some ⟨target, some [seq], some n⟩ =>
    if succeeds then
      { s with
        sink := s.sink.fsync seq n
        sync := { s.sync with
          round := none
          successful := max s.sync.successful target
          hasSuccess := true } }
    else { s with sink := if s.mem then s.sink else s.sink.poison seq }.roundFail
  | some ⟨target, some (seq :: files), some n⟩ =>
    if succeeds then
      { s with
        sink := (s.sink.fsync seq n).markSynced seq
        sync := { s.sync with round := some ⟨target, some files, none⟩ } }
    else s.roundFail
  | _ => s

def setDemand (s : WalGroup) (i : Nat) (d : SyncDemand) : WalGroup :=
  { s with sync := { s.sync with demands := s.sync.demands.set i d } }

/-- `sync_now` is called and reads the failure epoch. -/
def demand (s : WalGroup) : WalGroup :=
  { s with sync := { s.sync with
    demands := s.sync.demands ++ [⟨s.sync.writtenGeneration, s.sync.failureEpoch, none, none⟩] } }

/-- The call reads its target, and then looks for coverage or a failure until it has
one. -/
def demandStep (s : WalGroup) (i : Nat) : WalGroup :=
  match s.sync.demands[i]? with
  | some ⟨issued, epoch, none, none⟩ =>
    s.setDemand i ⟨issued, epoch, some s.sync.writtenGeneration, none⟩
  | some ⟨issued, epoch, some target, none⟩ =>
    if s.sync.covers target then s.setDemand i ⟨issued, epoch, some target, some true⟩
    else if s.sync.failureEpoch ≠ epoch then s.setDemand i ⟨issued, epoch, some target, some false⟩
    else s
  | _ => s

/-! ### Steps -/

/-- Who moves next, and what the environment answers. -/
inductive Event where
  | appendTicketed (payload : Bytes) (version : UInt64) (durability : WalDurability)
  | appendMany (entries : List (Bytes × UInt64)) (durability : WalDurability)
  | call (t : Nat)
  | cancel (t : Nat)
  | lead
  | append (write : FrameWrite) (full succeeds : Bool)
  | sync (succeeds : Bool)
  | drain
  | dropGuard
  | dropStep
  | land (write : FrameWrite)
  | roundStart
  | roundCapture
  | roundFsync
  | roundSync (succeeds : Bool)
  | roundFail
  | demand
  | demandStep (i : Nat)
  deriving DecidableEq

/-- A step of the holder of `flushing`. -/
def leaderStep (s : WalGroup) (guard : LeaderGuard) : Event → WalGroup
  | .lead => if guard.stage = .looking then s.lead guard else s
  | .append write full succeeds =>
    if s.mem then s.memAppend guard succeeds else s.appendStep guard write full succeeds
  | .sync succeeds => s.syncStep guard succeeds
  | .drain => if guard.stage = .breaking then s.drain guard else s
  | .dropGuard => s.dropGuard guard
  | .dropStep => s.dropStep guard
  | _ => s

/-- A call is cancelled at an await; the leader's own call drops the guard. -/
def cancel (s : WalGroup) (t : Nat) : WalGroup :=
  match s.phases t with
  | .returned _ => s
  | .leading => s
  | _ => s.setPhase t .cancelled

def step (s : WalGroup) (e : Event) : WalGroup :=
  match e with
  | .appendTicketed payload version durability => s.appendTicketed payload version durability
  | .appendMany entries durability => s.appendMany entries durability
  | .call t => if t < s.nextTicket then s.driveAndWait t else s
  | .cancel t => s.cancel t
  | .land write => s.land write
  | .roundStart => s.roundStart
  | .roundCapture => s.roundCapture
  | .roundFsync => s.roundFsync
  | .roundSync succeeds => s.roundSync succeeds
  | .roundFail => s.roundFail
  | .demand => s.demand
  | .demandStep i => s.demandStep i
  | e =>
    match s.leader with
    | none => s
    | some guard => s.leaderStep guard e

/-- One buffered call on a quiet group: it pushes, is elected and takes the queue. -/
def leads (t : Nat) (payload : Bytes) (version : UInt64) : List Event :=
  [.appendTicketed payload version .buffered, .call t, .call t, .lead]

end WalGroup

end ShamirDb
