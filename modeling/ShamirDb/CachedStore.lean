/-
# The mirror cache

A `CachedStore` keeps a copy of its inner store in memory.  One owner task takes the commands
off a queue and carries each out to its end before the next: in `Sync` mode the inner store
is written first, then the copy, then the caller is answered; in `Async` mode `set` and
`remove` change the copy and answer first and write the inner store afterwards.  An entry of
the copy is replaced by taking it out and putting the new one in.

Reads do not go through the owner.  A `get` captures the epoch, probes the copy and on a miss
reads the inner store; before it returns that value it has the owner fill it in, which the
owner does only if the epoch is even and still the captured one.  The epoch is odd while a
command that mutates is carried out.  A failed write to the inner store makes the store fail
for good: `get` and the commands look at that first, and again before they return.

`watch` and `behind` are not part of the program.  `watch` is the plain map the store is
compared with, `behind` the removal that was acknowledged but had not reached the inner store
when the `get` began.
-/
import ShamirDb.LinearizedMap
import ShamirDb.MirroredStore

namespace ShamirDb.CachedStore

open Machine KeyedWrites Linearized Function
open Mirrored (KvOp)

/-! ## Callers -/

inductive WriteMode where
  | sync
  | async
  deriving DecidableEq

inductive Command (K V : Type*) where
  | insert (value : V)
  | set (key : K) (value : V)
  | remove (key : K)
  | transact (ops : List (KvOp K V))
  | reload
  | flush
  deriving DecidableEq

/-- What the owner answers: an error, the key of an inserted value, a flag, or nothing. -/
inductive Reply (K : Type*) where
  | failed
  | created (key : K)
  | flag (value : Bool)
  | done
  deriving DecidableEq

inductive CallStage (K : Type*) where
  | admitting
  | queued
  | replied (reply : Reply K)
  | returned (reply : Reply K)
  deriving DecidableEq

structure Call (K V : Type*) where
  command : Command K V
  stage : CallStage K
  deriving DecidableEq

/-- Where a `get` is; `returned none` is `NotFound`. -/
inductive GetStage (V : Type*) where
  | started
  | captured (epoch : Nat)
  | hit (value : V)
  | missed (epoch : Nat)
  | read (epoch : Nat) (value : Option V)
  | filling (epoch : Nat) (value : Option V)
  | filled (value : Option V)
  | failed
  | returned (value : Option V)
  deriving DecidableEq

structure Get (K V : Type*) where
  key : K
  stage : GetStage V
  behind : Option Nat
  deriving DecidableEq

/-! ## The owner -/

/-- An entry of the queue. -/
inductive Item where
  | call (i : Nat)
  | fill (i : Nat)
  deriving DecidableEq

/-- For whom the copy is being changed. -/
inductive Client where
  | call (i : Nat)
  | reload (i : Nat)
  | fill (i : Nat)
  deriving DecidableEq

/-- What the owner does next.  In `publish` the first action is half done if `gap`: the old
entry is out and the new one not in yet; likewise in `asyncSet` once `created` is known. -/
inductive Work (K V : Type*) where
  | idle
  | insert (i : Nat) (value : V)
  | store (i : Nat) (command : Command K V)
  | publish (client : Client) (actions : List (KvOp K V)) (gap : Bool) (reply : Reply K)
  | asyncSet (i : Nat) (key : K) (value : V) (created : Option Bool)
  | asyncRemove (i : Nat) (key : K)
  | acking (i : Nat) (op : KvOp K V) (flag : Bool)
  | writing (i : Nat) (op : KvOp K V)
  | reload (i : Nat)
  | flush (i : Nat)
  deriving DecidableEq

structure System (K V : Type*) where
  inner : K → Option V
  /-- The keys the inner store has had, for its scans. -/
  domain : List K
  cache : K → Option V
  epoch : Nat
  failed : Bool
  work : Work K V
  queue : List Item
  calls : List (Call K V)
  gets : List (Get K V)
  watch : Watch K V

inductive Event (K V : Type*) where
  /-- A caller submits a command, gets a place in the queue, takes the answer, or sees the
  failure while it waits. -/
  | call (command : Command K V)
  | enqueue (i : Nat)
  | receive (i : Nat)
  | abandon (i : Nat)
  /-- The steps of a `get`. -/
  | get (key : K)
  | capture (i : Nat)
  | probe (i : Nat)
  | recheck (i : Nat)
  | readInner (i : Nat)
  | readFails (i : Nat)
  | fill (i : Nat)
  | finish (i : Nat)
  | giveUp (i : Nat)
  /-- The owner takes the next command. -/
  | dequeue
  /-- The owner makes its next step; an `insert` gets the key `fresh`. -/
  | proceed (fresh : K)
  /-- The access to the inner store fails and leaves it in any state. -/
  | fails (left : K → Option V)
  /-- The owner ends in the middle of its work. -/
  | halt (left : K → Option V)

variable {K V : Type*}

/-- The operations a command asks of the inner store. -/
def Command.ops : Command K V → List (KvOp K V)
  | .set key value => [.set key value]
  | .remove key => [.remove key]
  | .transact ops => ops
  | _ => []

/-- The answer of the inner store to a command, from what it holds before. -/
def Command.reply (inner : K → Option V) : Command K V → Reply K
  | .set key _ => .flag (inner key).isNone
  | .remove key => .flag (inner key).isSome
  | _ => .done

namespace System

/-- The store is built: the copy is loaded from the inner store. -/
def build (inner : K → Option V) (domain : List K) : System K V :=
  ⟨inner, domain, inner, 0, false, .idle, [], [], [], .start inner⟩

def setCall (s : System K V) (i : Nat) (c : Call K V) : System K V :=
  { s with calls := s.calls.set i c }

def setGet (s : System K V) (i : Nat) (g : Get K V) : System K V :=
  { s with gets := s.gets.set i g }

/-- The owner answers a call that is waiting. -/
def reply (s : System K V) (i : Nat) (r : Reply K) : System K V :=
  match s.calls[i]? with
  | some c => if c.stage matches .queued then s.setCall i { c with stage := .replied r } else s
  | none => s

/-- The owner answers a `get` that waits for its fill. -/
def fillDone (s : System K V) (i : Nat) : System K V :=
  match s.gets[i]? with
  | some g => match g.stage with
    | .filling _ value => s.setGet i { g with stage := .filled value }
    | _ => s
  | none => s

def fillFails (s : System K V) (i : Nat) : System K V :=
  match s.gets[i]? with
  | some g => match g.stage with
    | .filling _ _ => s.setGet i { g with stage := .failed }
    | _ => s
  | none => s

end System

/-! ## The steps of the callers -/

def callStep (s : System K V) : Event K V → System K V
  | .call command =>
    { s with
      calls := s.calls ++ [⟨command, if s.failed then .returned .failed else .admitting⟩] }
  | .enqueue i => match s.calls[i]? with
    | some c => match c.stage with
      | .admitting =>
        if s.failed then s.setCall i { c with stage := .returned .failed }
        else { s.setCall i { c with stage := .queued } with queue := s.queue ++ [.call i] }
      | _ => s
    | none => s
  | .receive i => match s.calls[i]? with
    | some c => match c.stage with
      | .replied r =>
        s.setCall i { c with stage := .returned (if s.failed then .failed else r) }
      | _ => s
    | none => s
  | .abandon i => match s.calls[i]? with
    | some c =>
      if s.failed && (c.stage matches .queued) then
        s.setCall i { c with stage := .returned .failed }
      else s
    | none => s
  | _ => s

variable [DecidableEq K]

/-- The acknowledged removal of the key that has not reached the inner store. -/
def Work.removing (work : Work K V) (key : K) : Option Nat :=
  match work with
  | .writing i (.remove k) => if k = key then some i else none
  | _ => none

def getStep (s : System K V) : Event K V → System K V
  | .get key =>
    if s.failed then { s with gets := s.gets ++ [⟨key, .failed, none⟩], watch := s.watch.begin key }
    else
      { s with
        gets := s.gets ++ [⟨key, .started, s.work.removing key⟩]
        watch := s.watch.begin key }
  | .capture i => match s.gets[i]? with
    | some g => match g.stage with
      | .started => s.setGet i { g with stage := .captured s.epoch }
      | _ => s
    | none => s
  | .probe i => match s.gets[i]? with
    | some g => match g.stage with
      | .captured epoch => match s.cache g.key with
        | some value => s.setGet i { g with stage := .hit value }
        | none => s.setGet i { g with stage := .missed epoch }
      | _ => s
    | none => s
  | .recheck i => match s.gets[i]? with
    | some g => match g.stage with
      | .hit value =>
        if s.failed then s.setGet i { g with stage := .failed }
        else
          { s.setGet i { g with stage := .returned (some value) } with
            watch := s.watch.answer i (some value) }
      | _ => s
    | none => s
  | .readInner i => match s.gets[i]? with
    | some g => match g.stage with
      | .missed epoch => s.setGet i { g with stage := .read epoch (s.inner g.key) }
      | _ => s
    | none => s
  | .readFails i => match s.gets[i]? with
    | some g => match g.stage with
      | .missed _ => s.setGet i { g with stage := .failed }
      | _ => s
    | none => s
  | .fill i => match s.gets[i]? with
    | some g => match g.stage with
      | .read epoch value =>
        if s.failed then s.setGet i { g with stage := .failed }
        else
          { s.setGet i { g with stage := .filling epoch value } with
            queue := s.queue ++ [.fill i] }
      | _ => s
    | none => s
  | .finish i => match s.gets[i]? with
    | some g => match g.stage with
      | .filled value =>
        if s.failed then s.setGet i { g with stage := .failed }
        else
          { s.setGet i { g with stage := .returned value } with
            watch := s.watch.answer i value }
      | _ => s
    | none => s
  | .giveUp i => if s.failed then s.fillFails i else s
  | _ => s

/-! ## The steps of the owner -/

/-- The owner begins the command of call `i`; one that mutates makes the epoch odd. -/
def System.start (mode : WriteMode) (s : System K V) (i : Nat) : Command K V → System K V
  | .insert value => { s with epoch := s.epoch + 1, work := .insert i value }
  | .set key value => match mode with
    | .sync => { s with epoch := s.epoch + 1, work := .store i (.set key value) }
    | .async => { s with epoch := s.epoch + 1, work := .asyncSet i key value none }
  | .remove key => match mode with
    | .sync => { s with epoch := s.epoch + 1, work := .store i (.remove key) }
    | .async => { s with epoch := s.epoch + 1, work := .asyncRemove i key }
  | .transact ops => { s with epoch := s.epoch + 1, work := .store i (.transact ops) }
  | .reload => { s with epoch := s.epoch + 1, work := .reload i }
  | .flush => { s with work := .flush i }

/-- A fill is applied only on the captured epoch, if that is even. -/
def System.startFill (s : System K V) (i : Nat) : System K V :=
  match s.gets[i]? with
  | some g => match g.stage with
    | .filling epoch (some value) =>
      if s.epoch = epoch ∧ s.epoch % 2 = 0 then
        { s with work := .publish (.fill i) [.set g.key value] false .done }
      else s.fillDone i
    | _ => s.fillDone i
  | none => s

def dequeue (mode : WriteMode) (s : System K V) : System K V :=
  match s.work, s.queue with
  | .idle, .call i :: rest =>
    if s.failed then { s with queue := rest }.reply i .failed
    else match s.calls[i]? with
      | some c => { s with queue := rest }.start mode i c.command
      | none => { s with queue := rest }
  | .idle, .fill i :: rest =>
    if s.failed then { s with queue := rest }.fillFails i
    else { s with queue := rest }.startFill i
  | _, _ => s

/-- `insert_sync`: an entry that is there stays. -/
def link (cache : K → Option V) (key : K) (value : V) : K → Option V :=
  if (cache key).isNone then update cache key (some value) else cache

/-- The change of the map that goes with a change of the copy. -/
def Client.change (client : Client) (watch : Watch K V) (op : KvOp K V) : Watch K V :=
  match client with
  | .call i => watch.change i op.write
  | _ => watch

/-- One step of the changes to the copy that follow a command. -/
def publishStep (s : System K V) (client : Client) (reply : Reply K) :
    List (KvOp K V) → Bool → System K V
  | .set key value :: rest, false =>
    { s with
      cache := update s.cache key none
      work := .publish client (.set key value :: rest) true reply }
  | .set key value :: rest, true =>
    { s with
      cache := link s.cache key value
      watch := client.change s.watch (.set key value)
      work := .publish client rest false reply }
  | .remove key :: rest, _ =>
    { s with
      cache := update s.cache key none
      watch := client.change s.watch (.remove key)
      work := .publish client rest false reply }
  | [], _ => match client with
    | .call i => { s with epoch := s.epoch + 1, work := .idle }.reply i reply
    | .reload i => { s with epoch := s.epoch + 1, work := .idle }.reply i reply
    | .fill i => { s with work := .idle }.fillDone i

/-- The actions of a reload: the entries without a record go, those of all records are put in. -/
def System.reloadActions (s : System K V) : List (KvOp K V) :=
  (s.domain.filter fun key => (s.cache key).isSome && (s.inner key).isNone).map .remove ++
    s.domain.filterMap fun key => (s.inner key).map (.set key)

/-- The next step of the owner. -/
def proceed (fresh : K) (s : System K V) : System K V :=
  match s.work with
  | .idle => s
  | .insert i value =>
    if (s.inner fresh).isNone then
      { s with
        inner := update s.inner fresh (some value)
        domain := s.domain.insert fresh
        work := .publish (.call i) [.set fresh value] true (.created fresh) }
    else s
  | .store i command =>
    { s with
      inner := apply (command.ops.map KvOp.write) s.inner
      domain := s.domain ∪ command.ops.map fun op => op.write.key
      work := .publish (.call i) command.ops false (command.reply s.inner) }
  | .publish client actions gap reply => publishStep s client reply actions gap
  | .asyncSet i key value none =>
    { s with
      cache := update s.cache key none
      work := .asyncSet i key value (some (s.cache key).isNone) }
  | .asyncSet i key value (some created) =>
    { s with
      cache := link s.cache key value
      watch := s.watch.change i ⟨key, some value⟩
      work := .acking i (.set key value) created }
  | .asyncRemove i key =>
    { s with
      cache := update s.cache key none
      work := .acking i (.remove key) (s.cache key).isSome }
  | .acking i op flag =>
    -- the removal of an entry is visible to all from its acknowledgement on
    match op with
    | .set key value => { s with work := .writing i (.set key value) }.reply i (.flag flag)
    | .remove key =>
      { s with
        watch := s.watch.change i ⟨key, none⟩
        work := .writing i (.remove key) }.reply i (.flag flag)
  | .writing _ op =>
    { s with
      inner := apply [op.write] s.inner
      domain := s.domain.insert op.write.key
      epoch := s.epoch + 1
      work := .idle }
  | .reload i => { s with work := .publish (.reload i) s.reloadActions false .done }
  | .flush i => { s with work := .idle }.reply i .done

/-- The access to the inner store fails: a write for good, a scan or a flush without
consequence. -/
def fails (left : K → Option V) (s : System K V) : System K V :=
  match s.work with
  | .insert i _ | .store i _ =>
    { s with
      inner := left
      failed := true
      work := .idle }.reply i .failed
  | .writing _ _ =>
    { s with
      inner := left
      failed := true
      work := .idle }
  | .reload i => { s with epoch := s.epoch + 1, work := .idle }.reply i .failed
  | .flush i => { s with work := .idle }.reply i .failed
  | _ => s

def halt (left : K → Option V) (s : System K V) : System K V :=
  { s with
    inner := left
    failed := true
    work := .idle }

def step (mode : WriteMode) (s : System K V) : Event K V → System K V
  | .halt left => halt left s
  | .dequeue => dequeue mode s
  | .proceed fresh => proceed fresh s
  | .fails left => fails left s
  | .call command => callStep s (.call command)
  | .enqueue i => callStep s (.enqueue i)
  | .receive i => callStep s (.receive i)
  | .abandon i => callStep s (.abandon i)
  | e => getStep s e

/-- A transaction writes no key twice, and no `get` that began after the acknowledgement of a
removal reads the inner store before the removal has reached it. -/
def Orderly (s : System K V) : Event K V → Prop
  | .call (.transact ops) => (ops.map fun op => op.write.key).Nodup
  | .readInner i => ∀ g ∈ s.gets[i]?, ∀ j ∈ g.behind, s.work.removing g.key ≠ some j
  | _ => True

instance (s : System K V) : ∀ e : Event K V, Decidable (Orderly s e)
  | .call (.transact ops) => inferInstanceAs (Decidable (ops.map fun op => op.write.key).Nodup)
  | .readInner i =>
    inferInstanceAs (Decidable (∀ g ∈ s.gets[i]?, ∀ j ∈ g.behind, s.work.removing g.key ≠ some j))
  | .call (.insert _) | .call (.set _ _) | .call (.remove _) | .call .reload | .call .flush
  | .enqueue _ | .receive _ | .abandon _ | .get _ | .capture _ | .probe _ | .recheck _
  | .readFails _ | .fill _ | .finish _ | .giveUp _ | .dequeue | .proceed _ | .fails _
  | .halt _ => inferInstanceAs (Decidable True)

end ShamirDb.CachedStore
