/-
# Compare-and-set over version cells

A client reads a row `with_version` and later writes it back with that version as its
`expected_version`.  The bytes of the row and the version are read apart: first the row,
then `version_of`, the version in the row's cell or 0 if there is none.  The write is
checked against the cell twice, when it is staged (`check_expected_version`) and in the
commit (Phase CAS).

The model runs any number of clients, transactions and plain writes step by step.  A
transaction that is Serializable, has expectations or a foreign-key footprint holds the
commit lock from its validation to its publication; any other one does not.  Its commit
point is the WAL append, after which the cells of its rows are raised one by one, by the
commit itself or, if that is dropped or never learns the fate of its entry, by the drainer.
A plain write raises the cell first and has its commit point in the log.  The drainer and
cold reads seed cells, vacuum moves anchors, pruning evicts cells below a version under
which everything is settled.

The checks of a Serializable commit that can only refuse it (read set, predicates) are part
of `abort`, which may come at any step before the version is assigned.

`commits` lists the committed rows in the order of their commit points.  It and the fields
`seen` and `since` of a ticket are not part of the program: they say which version the
bytes were of and how much was committed when they were taken.
-/
import ShamirDb.MvccStore
import ShamirDb.Machine

namespace ShamirDb.Cas

open Machine
open Mvcc (Cell)

/-! ## Clients and transactions -/

/-- A row of a transaction or of a plain write, with the version it gets. -/
structure Commit (K : Type) where
  version : Nat
  tx : Nat
  key : K
  deriving DecidableEq

/-- What a client has of a row: the bytes of version `seen`, and the version reported with
them. -/
structure Ticket (K : Type) where
  key : K
  seen : Nat
  since : Nat
  reported : Option Nat
  deriving DecidableEq

/-- An entry of `cas_set`, and the ticket it was made from. -/
structure Expect (K : Type) where
  key : K
  expected : Nat
  ticket : Nat
  deriving DecidableEq

/-- Where a writer is.  A transaction is `running` until its commit; `validating` has the
expectations that passed and those still to check, `claiming` the rows still to claim; an
`appending` one waits for the WAL.  A plain write is `allocating`, `raising` or
`logging`. -/
inductive Place (K : Type) where
  | running
  | validating (passed todo : List (Expect K))
  | claiming (todo : List K)
  | appending
  | publishing
  | allocating
  | raising
  | logging
  | ended
  deriving DecidableEq

/-- A writer.  `footprint` stands for the other reasons to hold the commit lock; `version`
is 0 until one is assigned; `committed` is the number of rows committed before it. -/
structure Tx (K : Type) where
  serializable : Bool
  footprint : Bool
  snapshot : Nat
  place : Place K
  staged : List K
  cas : List (Expect K)
  version : Nat
  committed : Option Nat
  deriving DecidableEq

namespace Tx

variable {K : Type}

/-- A transaction that has staged nothing yet. -/
def new (serializable footprint : Bool) (snapshot : Nat) : Tx K :=
  ⟨serializable, footprint, snapshot, .running, [], [], 0, none⟩

/-- A plain write of one row. -/
def plain (key : K) : Tx K := ⟨false, false, 0, .allocating, [key], [], 0, none⟩

/-- The condition of `commit_tx_lockfree` for taking the commit lock. -/
def needsLock (tx : Tx K) : Bool := tx.serializable || tx.footprint || !tx.cas.isEmpty

/-- The rows as they are committed. -/
def rows (tx : Tx K) (t : Nat) : List (Commit K) := tx.staged.map fun key => ⟨tx.version, t, key⟩

/-- The expectations that have passed Phase CAS, up to the commit point. -/
def checked (tx : Tx K) : List (Expect K) :=
  match tx.place with
  | .validating passed _ => passed
  | .claiming _ | .appending => tx.cas
  | _ => []

end Tx

/-! ## The system -/

structure System (K : Type) where
  cells : K → Option Cell
  lastVersion : Nat
  /-- The transaction that holds `commit_lock`. -/
  lock : Option Nat
  /-- Versions that are assigned and not settled; the watermark is below them. -/
  unsettled : List Nat
  /-- Rows with a version, before their commit point. -/
  assigned : List (Commit K)
  commits : List (Commit K)
  /-- Committed rows of transactions whose cells have not been raised. -/
  pending : List (Commit K)
  txs : List (Tx K)
  tickets : List (Ticket K)

/-- How the WAL append of a transaction ends.  `lost` is an unknown fate, or a commit that
was dropped while it waited. -/
inductive WalOutcome where
  | written
  | refused
  | lost (written : Bool)
  deriving DecidableEq

/-- How the log of a plain write ends.  After `stuck` the attempted row could not be
removed. -/
inductive LogOutcome where
  | done
  | undone
  | stuck
  deriving DecidableEq

inductive Event (K : Type) where
  | take (key : K) (version : Nat)
  | report (c : Nat)
  | begin (serializable footprint : Bool) (snapshot : Nat)
  | stage (t : Nat) (key : K)
  | stageExpected (t c : Nat)
  | commit (t : Nat)
  | validate (t : Nat)
  | claim (t : Nat)
  | assign (t : Nat)
  | wal (t : Nat) (outcome : WalOutcome)
  | publish (t : Nat) (key : K)
  | replay (t : Nat) (key : K)
  | settle (t : Nat)
  | abort (t : Nat)
  | drop (t : Nat)
  | plain (key : K)
  | raise (t : Nat)
  | log (t : Nat) (outcome : LogOutcome)
  | seed (key : K) (version : Nat)
  | vacuum (key : K) (anchor : Nat)
  | prune (key : K) (minAlive : Nat)
  deriving DecidableEq

variable {K : Type} [DecidableEq K]

namespace System

def init : System K := ⟨fun _ => none, 0, none, [], [], [], [], [], []⟩

/-- `version_of`: 0 for a row without a cell. -/
def versionOf (s : System K) (key : K) : Nat :=
  match s.cells key with
  | some c => c.version
  | none => 0

def setTx (s : System K) (t : Nat) (tx : Tx K) : System K := { s with txs := s.txs.set t tx }

def setCell (s : System K) (key : K) (c : Option Cell) : System K :=
  { s with cells := Function.update s.cells key c }

/-- The row has a committed version `version`. -/
def Holds (s : System K) (key : K) (version : Nat) : Prop :=
  ∃ m ∈ s.commits, m.key = key ∧ m.version = version

instance (s : System K) (key : K) (version : Nat) : Decidable (s.Holds key version) :=
  inferInstanceAs (Decidable (∃ m ∈ s.commits, m.key = key ∧ m.version = version))

/-- The transaction gives back its claims and the commit lock. -/
def letGo (s : System K) (t : Nat) : System K :=
  { s with
    cells := fun key => (s.cells key).map fun c =>
      if c.reservedBy = t + 1 then { c with reservedBy := 0 } else c
    lock := if s.lock = some t then none else s.lock }

/-- An end before the commit point. -/
def quit (s : System K) (t : Nat) (tx : Tx K) : System K :=
  (s.letGo t).setTx t { tx with place := .ended }

/-- `check_expected_version` and, if it passes, the staged write with its entry in
`cas_set`; an older entry for the row is replaced. -/
def stageExpected (s : System K) (t : Nat) (tx : Tx K) (c : Nat) : System K :=
  match s.tickets[c]? with
  | some ⟨key, _, _, some n⟩ =>
    if s.versionOf key = n then
      s.setTx t { tx with
        staged := tx.staged.insert key
        cas := tx.cas.filter (·.key ≠ key) ++ [⟨key, n, c⟩] }
    else s
  | _ => s

/-- The entry of the commit, up to the commit lock if it is needed. -/
def commit (s : System K) (t : Nat) (tx : Tx K) : System K :=
  if tx.needsLock then
    match s.lock with
    | none => { s with lock := some t }.setTx t { tx with place := .validating [] tx.cas }
    | some _ => s
  else s.setTx t { tx with place := .validating [] tx.cas }

/-- One turn of Phase CAS; after the last one an empty transaction is done, and a
Serializable one goes on to claim its rows. -/
def validate (s : System K) (t : Nat) (tx : Tx K) (passed : List (Expect K)) :
    List (Expect K) → System K
  | e :: todo =>
    if s.versionOf e.key = e.expected then
      s.setTx t { tx with place := .validating (passed ++ [e]) todo }
    else s.quit t tx
  | [] =>
    if tx.staged = [] then s.quit t tx
    else s.setTx t { tx with place := .claiming (if tx.serializable then tx.staged else []) }

/-- One turn of `claim_write_set`. -/
def claim (s : System K) (t : Nat) (tx : Tx K) (key : K) (todo : List K) : System K :=
  match Cell.reserve tx.snapshot (t + 1) (s.cells key) with
  | some c => (s.setCell key (some c)).setTx t { tx with place := .claiming todo }
  | none => s.quit t tx

/-- `assign_next_version`. -/
def assign (s : System K) (t : Nat) (tx : Tx K) (place : Place K) : System K :=
  let tx' := { tx with version := s.lastVersion + 1, place := place }
  { s with
    lastVersion := s.lastVersion + 1
    unsettled := s.unsettled ++ [s.lastVersion + 1]
    assigned := s.assigned ++ tx'.rows t }.setTx t tx'

/-- The rows of a writer are before their commit point no longer. -/
def unassign (s : System K) (t : Nat) : System K :=
  { s with assigned := s.assigned.filter (·.tx ≠ t) }

/-- The commit point; the cells of the `unraised` rows are still to be raised. -/
def append (s : System K) (t : Nat) (tx : Tx K) (unraised : List (Commit K)) (place : Place K) :
    System K :=
  { s.unassign t with
    commits := s.commits ++ tx.rows t
    pending := s.pending ++ unraised }.setTx t
      { tx with place := place, committed := some s.commits.length }

/-- A version is settled. -/
def settleVersion (s : System K) (v : Nat) : System K :=
  { s with unsettled := s.unsettled.filter (· ≠ v) }

/-- The answer of the WAL.  An entry whose fate is unknown leaves its version unsettled. -/
def wal (s : System K) (t : Nat) (tx : Tx K) : WalOutcome → System K
  | .written => s.append t tx (tx.rows t) .publishing
  | .refused => ((s.unassign t).settleVersion tx.version).quit t tx
  | .lost true => (s.append t tx (tx.rows t) .ended).letGo t
  | .lost false => (s.unassign t).quit t tx

/-- The answer of the log to a plain write, and its compensation. -/
def log (s : System K) (t : Nat) (tx : Tx K) : LogOutcome → System K
  | .done => s.append t tx [] .ended
  | .undone => ((s.unassign t).settleVersion tx.version).setTx t { tx with place := .ended }
  | .stuck => (s.unassign t).setTx t { tx with place := .ended }

/-- A committed row gets its cell raised. -/
def raiseRow (s : System K) (m : Commit K) (c : Cell) : System K :=
  { s.setCell m.key (some c) with pending := s.pending.filter (· ≠ m) }

/-- The rows of version `v` have their cells raised. -/
def Raised (s : System K) (v : Nat) : Prop := ∀ m ∈ s.pending, m.version ≠ v

instance (s : System K) (v : Nat) : Decidable (s.Raised v) :=
  inferInstanceAs (Decidable (∀ m ∈ s.pending, m.version ≠ v))

/-- `prune_version_cache` on one cell.  `min_alive` is never above the watermark. -/
def prune (s : System K) (key : K) (minAlive : Nat) : System K :=
  if minAlive ≤ s.lastVersion ∧ ∀ u ∈ s.unsettled, minAlive < u then
    match s.cells key with
    | some c => if c.evictable minAlive then s.setCell key none else s
    | none => s
  else s

end System

/-- One step of the writer `tx`, whose number is `t`. -/
def act (s : System K) (t : Nat) (tx : Tx K) : Event K → System K
  | .stage _ key =>
    match tx.place with
    | .running => s.setTx t { tx with staged := tx.staged.insert key }
    | _ => s
  | .stageExpected _ c =>
    match tx.place with
    | .running => s.stageExpected t tx c
    | _ => s
  | .commit _ =>
    match tx.place with
    | .running => s.commit t tx
    | _ => s
  | .validate _ =>
    match tx.place with
    | .validating passed todo => s.validate t tx passed todo
    | _ => s
  | .claim _ =>
    match tx.place with
    | .claiming (key :: todo) => s.claim t tx key todo
    | _ => s
  | .assign _ =>
    match tx.place with
    | .claiming [] => s.assign t tx .appending
    | .allocating => s.assign t tx .raising
    | _ => s
  | .wal _ outcome =>
    match tx.place with
    | .appending => s.wal t tx outcome
    | _ => s
  | .publish _ key =>
    match tx.place with
    | .publishing =>
      if ⟨tx.version, t, key⟩ ∈ s.pending then
        s.raiseRow ⟨tx.version, t, key⟩ (Cell.finalize tx.version (s.cells key))
      else s
    | _ => s
  | .replay _ key =>
    match tx.place with
    | .ended =>
      if ⟨tx.version, t, key⟩ ∈ s.pending then
        s.raiseRow ⟨tx.version, t, key⟩ (Cell.publish tx.version (s.cells key))
      else s
    | _ => s
  | .settle _ =>
    match tx.place with
    | .publishing =>
      if s.Raised tx.version then (s.settleVersion tx.version).quit t tx else s
    | .ended =>
      if tx.committed ≠ none ∧ s.Raised tx.version then s.settleVersion tx.version else s
    | _ => s
  | .abort _ =>
    match tx.place with
    | .running | .validating _ _ | .claiming _ => s.quit t tx
    | _ => s
  | .drop _ =>
    match tx.place with
    | .running | .validating _ _ | .claiming _ | .publishing => s.quit t tx
    | .raising | .logging => s.log t tx .undone
    | _ => s
  | .raise _ =>
    match tx.place, tx.staged with
    | .raising, [key] =>
      (s.setCell key (some (Cell.publish tx.version (s.cells key)))).setTx t
        { tx with place := .logging }
    | _, _ => s
  | .log _ outcome =>
    match tx.place with
    | .logging => s.log t tx outcome
    | _ => s
  | _ => s

/-- The writer an event is a step of. -/
def Event.tx : Event K → Option Nat
  | .stage t _ | .stageExpected t _ | .commit t | .validate t | .claim t | .assign t | .wal t _
  | .publish t _ | .replay t _ | .settle t | .abort t | .drop t | .raise t | .log t _ => some t
  | _ => none

/-- One step that is not a step of a writer. -/
def serve (s : System K) : Event K → System K
  | .take key v =>
    if s.Holds key v then
      { s with tickets := s.tickets ++ [⟨key, v, s.commits.length, none⟩] }
    else s
  | .report c =>
    match s.tickets[c]? with
    | some ⟨key, seen, since, none⟩ =>
      { s with tickets := s.tickets.set c ⟨key, seen, since, some (s.versionOf key)⟩ }
    | _ => s
  | .begin serializable footprint snapshot =>
    { s with txs := s.txs ++ [.new serializable footprint snapshot] }
  | .plain key => { s with txs := s.txs ++ [.plain key] }
  | .seed key v =>
    if s.Holds key v then s.setCell key (some (Cell.publish v (s.cells key))) else s
  | .vacuum key anchor =>
    s.setCell key ((s.cells key).map fun c => { c with vacuumAnchor := anchor })
  | .prune key minAlive => s.prune key minAlive
  | _ => s

def step (s : System K) (ev : Event K) : System K :=
  match ev.tx with
  | some t =>
    match s.txs[t]? with
    | some tx => act s t tx ev
    | none => s
  | none => serve s ev

/-- The state after the events `es`. -/
abbrev after (es : List (Event K)) : System K := run step .init es

/-! ## Undisturbed steps -/

/-- A transaction has passed Phase CAS for the row and has not reached its commit point. -/
def Guarded (s : System K) (key : K) : Prop :=
  ∃ h ∈ s.lock, ∃ tx ∈ s.txs[h]?, ∃ e ∈ tx.checked, e.key = key

/-- The step is a commit point. -/
def Event.isCommitPoint : Event K → Bool
  | .wal _ .written | .wal _ (.lost true) | .log _ .done => true
  | _ => false

/-- The step of the writer `tx` does not disturb an expectation: Phase CAS checks a row
whose committed versions have all reached its cell, and a writer without the commit lock
does not commit a row in between another one's check and commit point. -/
def SparesChecks (s : System K) (tx : Tx K) (ev : Event K) : Prop :=
  match ev, tx.place with
  | .validate _, .validating _ (e :: _) => ∀ m ∈ s.pending, m.key ≠ e.key
  | ev, _ => ev.isCommitPoint = true → tx.needsLock = false → ∀ key ∈ tx.staged, ¬ Guarded s key

/-- The step does not disturb a client: the bytes are not taken while an older write of the
row is in flight, the version is reported from a cell that has the version of the bytes, and
an empty cell is only seeded with a version that is not below one that was raised before. -/
def Undisturbed (s : System K) (ev : Event K) : Prop :=
  match ev with
  | .take key v => ∀ m ∈ s.assigned, m.key = key → v < m.version
  | .report c => ∀ ticket ∈ s.tickets[c]?, s.versionOf ticket.key = ticket.seen
  | .seed key v =>
    s.versionOf key = 0 → ∀ m ∈ s.commits, m.key = key → m ∉ s.pending → m.version ≤ v
  | ev => ∀ t ∈ ev.tx, ∀ tx ∈ s.txs[t]?, SparesChecks s tx ev

instance (s : System K) (key : K) : Decidable (Guarded s key) :=
  inferInstanceAs (Decidable (∃ h ∈ s.lock, ∃ tx ∈ s.txs[h]?, ∃ e ∈ tx.checked, e.key = key))

instance (s : System K) (tx : Tx K) (ev : Event K) : Decidable (SparesChecks s tx ev) := by
  unfold SparesChecks
  split <;> infer_instance

instance (s : System K) (ev : Event K) : Decidable (Undisturbed s ev) := by
  unfold Undisturbed
  split <;> infer_instance

/-! ## Lost updates -/

/-- Between the moment the bytes of a client were taken and the commit point of its write
no write of the row committed. -/
def NothingBetween (s : System K) : Prop :=
  ∀ (t : Nat) (tx : Tx K) (n : Nat) (e : Expect K) (ticket : Ticket K), s.txs[t]? = some tx →
    tx.committed = some n → e ∈ tx.cas → s.tickets[e.ticket]? = some ticket →
      ∀ (j : Nat) (m : Commit K), ticket.since ≤ j → j < n → s.commits[j]? = some m → m.key ≠ e.key

/-- Of the transactions that expect one version of a row, at most one commits. -/
def OneWins (s : System K) : Prop :=
  ∀ (t u : Nat) (tx ux : Tx K) (e f : Expect K), s.txs[t]? = some tx → s.txs[u]? = some ux →
    tx.committed ≠ none → ux.committed ≠ none → e ∈ tx.cas → f ∈ ux.cas → e.key = f.key →
      e.expected = f.expected → t = u

end ShamirDb.Cas
