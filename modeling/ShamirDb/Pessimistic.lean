/-
# Pessimistic transactions and their reads

A pessimistic transaction locks a row before it reads or stages it: shared for a point
read, exclusive for a write.  A point read under the lock returns the latest committed
version.  The commit checks the wound mark once, at its entry; then it writes the WAL entry
and publishes the rows, and only after that it gives the locks back.

The model runs any number of transactions step by step: the calls of `lock_key` (the check
of the wound mark and the critical section are two steps), the read or the staging under
the lock, the stages of the commit, the publication of the rows one by one and the release
of the keys one by one.  A WAL entry whose fate is unknown closes the repository for new
commits; if it was written after all, its rows are published later, by replay.

`visible` lists the publications in the order in which they happened.  It is not part of
the program: reads and commits remember the length it had, so that "between the read and
the commit" can be said.
-/
import ShamirDb.TxLocks

namespace ShamirDb.Pessimistic

open Machine KeyLocks Function
open TxLocks (Stage)

/-! ## Transactions -/

/-- An operation on a row.  Its kind fixes the mode of the lock. -/
inductive Op (K : Type) where
  | read (key : K)
  | write (key : K)
  deriving DecidableEq

namespace Op

variable {K : Type}

def key : Op K → K
  | .read key => key
  | .write key => key

def mode : Op K → LockMode
  | .read _ => .shared
  | .write _ => .exclusive

end Op

/-- A point read: the version it returned, and how much was visible when it ran. -/
structure Read (K : Type) where
  key : K
  seen : Nat
  since : Nat
  deriving DecidableEq

/-- Where a transaction is.  `checking` is the head of the loop in `lock_key`, `entering`
its critical section; `granted` has the lock and not yet read or staged the row. -/
inductive Place (K : Type) where
  | running
  | checking (op : Op K)
  | entering (op : Op K)
  | granted (op : Op K)
  | committing (stage : Stage)
  | publishing (todo : List K)
  | releasing (todo : List K)
  | ended
  deriving DecidableEq

/-- A transaction.  `version` is 0 until the commit assigns one; `unsettled` are the rows
of a WAL entry of unknown fate; `committed` is what was visible when its commit was. -/
structure Tx (K : Type) where
  place : Place K
  locked : List K
  staged : List K
  reads : List (Read K)
  version : Nat
  unsettled : List K
  committed : Option Nat
  deriving DecidableEq

def Tx.new {K : Type} : Tx K := ⟨.running, [], [], [], 0, [], none⟩

/-- One row of one transaction became visible. -/
structure Publication (K : Type) where
  version : Nat
  tx : Nat
  key : K
  deriving DecidableEq

/-! ## The system -/

structure System (K : Type) where
  locks : K → KeyLockState
  wounded : Nat → Bool
  requiresReopen : Bool
  lastVersion : Nat
  cells : K → Nat
  visible : List (Publication K)
  txs : Nat → Option (Tx K)

/-- What the WAL says about an entry (`WalAppendError`). -/
inductive WalOutcome where
  | written
  | writtenNotDurable
  | notWritten
  | unknown
  deriving DecidableEq

inductive Event (K : Type) where
  | begin (t : Nat)
  | call (t : Nat) (op : Op K)
  | check (t : Nat)
  | enter (t : Nat)
  | finish (t : Nat)
  | cancel (t : Nat)
  | abort (t : Nat)
  | drop (t : Nat)
  | commit (t : Nat)
  | stage (t : Nat) (ok : Bool)
  | wal (t : Nat) (outcome : WalOutcome)
  | publish (t : Nat) (key : K)
  | settle (t : Nat)
  | replay (t : Nat) (key : K)
  | release (t : Nat)
  deriving DecidableEq

variable {K : Type} [DecidableEq K]

namespace System

def init : System K := ⟨fun _ => .unheld, fun _ => false, false, 0, fun _ => 0, [], fun _ => none⟩

def setTx (s : System K) (t : Nat) (tx : Tx K) : System K :=
  { s with txs := update s.txs t (some tx) }

/-- One turn of the loop in `lock_key`. -/
def enter (s : System K) (t : Nat) (tx : Tx K) (op : Op K) : System K :=
  let a := (s.locks op.key).attempt t op.mode
  let s' := { s with
    locks := update s.locks op.key a.state
    wounded := fun h => s.wounded h || h ∈ a.victims }
  if a.granted then s'.setTx t { tx with place := .granted op, locked := tx.locked.insert op.key }
  else s'.setTx t { tx with place := .checking op }

/-- The operation under its lock.  A row the transaction has staged itself is read from
its own write set. -/
def finish (s : System K) (t : Nat) (tx : Tx K) : Op K → System K
  | .read key =>
    if key ∈ tx.staged then s.setTx t { tx with place := .running }
    else s.setTx t { tx with
      place := .running, reads := ⟨key, s.cells key, s.visible.length⟩ :: tx.reads }
  | .write key => s.setTx t { tx with place := .running, staged := tx.staged.insert key }

/-- The stage of a commit lets the transaction pass. -/
def passes (s : System K) (t : Nat) (stage : Stage) (ok : Bool) : Bool :=
  match stage with
  | .wounded => !s.wounded t
  | .gateReopen => !s.requiresReopen
  | _ => ok

/-- One stage of a commit.  A transaction that staged nothing is done at `validate`; any
other one gets its version there. -/
def commitStage (s : System K) (t : Nat) (tx : Tx K) (stage : Stage) (ok : Bool) : System K :=
  if s.passes t stage ok then
    match stage with
    | .validate =>
      if tx.staged = [] then
        s.setTx t { tx with place := .releasing tx.locked, committed := some s.visible.length }
      else
        { s with lastVersion := s.lastVersion + 1 }.setTx t
          { tx with place := .committing .walQueue, version := s.lastVersion + 1 }
    -- the answer of the WAL and the publication have their own steps
    | .walCompletion | .publish => s
    | _ =>
      match stage.next with
      | some next => s.setTx t { tx with place := .committing next }
      | none => s
  else
    match stage with
    | .walCompletion | .publish => s
    | _ =>
      { s with requiresReopen := s.requiresReopen || decide (stage = Stage.walReopen) }.setTx t
        { tx with place := .releasing tx.locked }

/-- The answer of the WAL. -/
def wal (s : System K) (t : Nat) (tx : Tx K) : WalOutcome → System K
  | .written | .writtenNotDurable => s.setTx t { tx with place := .publishing tx.staged }
  | .notWritten => s.setTx t { tx with place := .releasing tx.locked }
  | .unknown =>
    { s with requiresReopen := true }.setTx t
      { tx with place := .releasing tx.locked, unsettled := tx.staged }

/-- `finalize_reservation`: the cell of a row never goes back. -/
def publish (s : System K) (t : Nat) (tx : Tx K) (key : K) : System K :=
  { s with
    cells := update s.cells key (max (s.cells key) tx.version)
    visible := s.visible ++ [⟨tx.version, t, key⟩] }

/-- One row of a WAL entry that was written after all; the last one completes it. -/
def replay (s : System K) (t : Nat) (tx : Tx K) (key : K) : System K :=
  let rest := tx.unsettled.filter (· ≠ key)
  (s.publish t tx key).setTx t { tx with
    unsettled := rest
    committed := if rest = [] then some (s.visible.length + 1) else tx.committed }

def release (s : System K) (t : Nat) (tx : Tx K) : List K → System K
  | [] => s.setTx t { tx with place := .ended }
  | key :: todo =>
    { s with locks := update s.locks key ((s.locks key).release t) }.setTx t
      { tx with place := .releasing todo }

end System

/-- One step of the transaction `tx`, whose number is `t`. -/
def act (s : System K) (t : Nat) (tx : Tx K) : Event K → System K
  | .begin _ => s
  | .call _ op =>
    match tx.place with
    | .running => s.setTx t { tx with place := .checking op }
    | _ => s
  | .check _ =>
    match tx.place with
    | .checking op =>
      s.setTx t { tx with place := if s.wounded t then .running else .entering op }
    | _ => s
  | .enter _ =>
    match tx.place with
    | .entering op => s.enter t tx op
    | _ => s
  | .finish _ =>
    match tx.place with
    | .granted op => s.finish t tx op
    | _ => s
  | .cancel _ =>
    match tx.place with
    | .checking _ | .entering _ | .granted _ => s.setTx t { tx with place := .running }
    | _ => s
  | .abort _ =>
    match tx.place with
    | .running => s.setTx t { tx with place := .releasing tx.locked }
    | _ => s
  | .drop _ =>
    match tx.place with
    | .publishing _ => s
    | .committing stage => if stage.detached then s else s.setTx t { tx with place := .ended }
    | _ => s.setTx t { tx with place := .ended }
  | .commit _ =>
    match tx.place with
    | .running => s.setTx t { tx with place := .committing .visibilityWait }
    | _ => s
  | .stage _ ok =>
    match tx.place with
    | .committing stage => s.commitStage t tx stage ok
    | _ => s
  | .wal _ outcome =>
    match tx.place with
    | .committing .walCompletion => s.wal t tx outcome
    | _ => s
  | .publish _ key =>
    match tx.place with
    | .publishing todo =>
      if key ∈ todo then
        (s.publish t tx key).setTx t { tx with place := .publishing (todo.filter (· ≠ key)) }
      else s
    | _ => s
  | .settle _ =>
    match tx.place with
    | .publishing [] =>
      s.setTx t { tx with place := .releasing tx.locked, committed := some s.visible.length }
    | _ => s
  | .replay _ key => if key ∈ tx.unsettled then s.replay t tx key else s
  | .release _ =>
    match tx.place with
    | .releasing todo => s.release t tx todo
    | _ => s

def Event.tx : Event K → Nat
  | .begin t | .call t _ | .check t | .enter t | .finish t | .cancel t | .abort t | .drop t
  | .commit t | .stage t _ | .wal t _ | .publish t _ | .settle t | .replay t _ | .release t => t

def step (s : System K) (ev : Event K) : System K :=
  match s.txs ev.tx with
  | some tx => act s ev.tx tx ev
  | none =>
    match ev with
    | .begin t => s.setTx t .new
    | _ => s

/-- The state after the events `es`. -/
abbrev after (es : List (Event K)) : System K := run step .init es

/-! ## Losing a lock -/

/-- The transactions from which a step takes a lock away. -/
def victims (s : System K) : Event K → List Nat
  | .enter t =>
    match s.txs t with
    | some tx =>
      match tx.place with
      | .entering op => ((s.locks op.key).attempt t op.mode).victims
      | _ => []
    | none => []
  | _ => []

/-- The commit is past the check of its wound mark. -/
def pastWoundCheck : Stage → Bool
  | .access | .visibilityWait | .gateInit | .wounded => false
  | _ => true

/-- The commit is past the check for a closed repository. -/
def pastReopenCheck : Stage → Bool
  | .access | .visibilityWait | .gateInit | .wounded | .expiry | .gate | .gateReopen => false
  | _ => true

/-- The transaction has passed the check of its wound mark, and its commit may still
become visible. -/
def Tx.passed (tx : Tx K) : Bool :=
  tx.unsettled ≠ [] ||
    match tx.place with
    | .committing stage => pastWoundCheck stage
    | .publishing _ => true
    | _ => false

/-- No lock is taken from a transaction between the check of its wound mark and the moment
its commit is visible. -/
def SparesPassed (s : System K) (ev : Event K) : Prop :=
  ∀ t ∈ victims s ev, ∀ tx ∈ s.txs t, tx.passed = false

instance (s : System K) (ev : Event K) : Decidable (SparesPassed s ev) :=
  inferInstanceAs (Decidable (∀ t ∈ victims s ev, ∀ tx ∈ s.txs t, tx.passed = false))

end ShamirDb.Pessimistic
