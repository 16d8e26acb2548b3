/-
# The per-key lock table

A pessimistic transaction locks a key through `lock_key` and gives its keys back through
`release_locks`.  Transactions are numbered, and a smaller number is older.  A request
that meets an incompatible holder wounds the holders that are younger than itself and
waits for the older ones (wound-wait).

The lock of a key lives in a registry and is retired when no call leases it and nobody
holds it.  Its state is guarded by a mutex.  The model executes every call one access at
a time: the registry operations, the loads and stores of wound marks, the wake-ups, and
the two ends of the mutex.  Between these ends a call works on its own copy of the state,
which is written back when the mutex is released; nobody else can tell the difference.
A call may be dropped at its await points.
-/
import Mathlib.Data.List.Perm.Basic
import Mathlib.Logic.Relation
import Mathlib.Tactic.Common
import Mathlib.Logic.Function.Basic
import ShamirDb.Machine

namespace ShamirDb.KeyLocks

open Machine Function

/-! ## The state of one lock -/

inductive LockMode where
  | shared
  | exclusive
  deriving DecidableEq

/-- The holders of a key, by the numbers of their transactions, and their mode. -/
structure KeyLockState where
  holders : List Nat
  mode : Option LockMode
  deriving DecidableEq

/-- `Vec::swap_remove`: the last element takes the place of the removed one. -/
def swapRemove {α : Type*} (xs : List α) (i : Nat) : List α :=
  match xs.getLast? with
  | some x => (xs.set i x).dropLast
  | none => xs

namespace KeyLockState

def unheld : KeyLockState := ⟨[], none⟩

def heldBy (st : KeyLockState) (tx : Nat) : Bool := st.holders.any (· == tx)

def recomputeMode (st : KeyLockState) : KeyLockState :=
  match st.holders.length with
  | 0 => { st with mode := none }
  | 1 => st
  | _ => { st with mode := some .shared }

/-- The request of `tx` can be granted at once. -/
def compatible (st : KeyLockState) (tx : Nat) (mode : LockMode) : Bool :=
  let reEntrant := st.heldBy tx
  let hasOtherHolders := st.holders.any (· != tx)
  let reEntrantCompatible := reEntrant && (mode != .exclusive || !hasOtherHolders)
  reEntrantCompatible || st.mode.isNone || (mode == .shared && st.mode == some .shared)

/-- A compatible request is granted; a holder keeps the strongest mode it has. -/
def grant (st : KeyLockState) (tx : Nat) (mode : LockMode) : KeyLockState :=
  if st.heldBy tx then
    if mode = .exclusive then { st with mode := some .exclusive } else st
  else ⟨st.holders ++ [tx], some mode⟩

/-- The holders left when `tx` gives the key back. -/
def retain (st : KeyLockState) (tx : Nat) : List Nat := st.holders.filter (· != tx)

end KeyLockState

/-- A registered lock: the state behind the mutex and the call that has locked it, the
calls queued on `notify`, the number of leases, and the mirrored number of holders. -/
structure KeyLock where
  state : KeyLockState
  guard : Option Nat
  waiting : List Nat
  leases : Nat
  holders : Nat
  deriving DecidableEq

def KeyLock.new : KeyLock := ⟨.unheld, none, [], 0, 0⟩

/-! ## Calls -/

structure Request (K : Type) where
  key : K
  tx : Nat
  mode : LockMode
  deriving DecidableEq

inductive Result where
  | ok
  | conflict (message : String)
  | cancelled
  deriving DecidableEq

/-- The next access of the loop in `lock_key`.  From `scan` to `park` the call has locked
the mutex; `state` is its copy, and `scan j` has the holders below index `j` to visit. -/
inductive LockPc where
  | check
  | enter
  | scan (j : Nat) (state : KeyLockState) (mustWait woundedAny : Bool)
  | poke (j victim : Nat) (state : KeyLockState) (mustWait : Bool)
  | recheck (state : KeyLockState)
  | park (state : KeyLockState)
  | parked
  deriving DecidableEq

/-- The next access of a call.  `leave` drops the lease and goes on with `after`. -/
inductive Pc (K : Type) where
  | acquire (r : Request K)
  | locking (r : Request K) (lock : Nat) (pc : LockPc)
  | release (tx : Nat) (keys : List K)
  | releasing (tx : Nat) (key : K) (lock : Nat) (keys : List K)
  | leave (key : K) (lock : Nat) (after : Pc K)
  | returned (result : Result)
  deriving DecidableEq

/-- Every lock ever made has a number; `registry` gives the one a key has now.  The wound
mark and the stored permit of the wound notification belong to a transaction. -/
structure System (K : Type) where
  registry : K → Option Nat
  locks : Nat → KeyLock
  next : Nat
  wounded : Nat → Bool
  permit : Nat → Bool
  tasks : List (Pc K)

variable {K : Type} [DecidableEq K]

namespace System

def init : System K := ⟨fun _ => none, fun _ => .new, 0, fun _ => false, fun _ => false, []⟩

def goto (s : System K) (i : Nat) (pc : Pc K) : System K := { s with tasks := s.tasks.set i pc }

def setLock (s : System K) (l : Nat) (lock : KeyLock) : System K :=
  { s with locks := update s.locks l lock }

end System

/-! ## Accesses -/

/-- `LockLease::acquire` on a registered lock. -/
def KeyLock.lease (lock : KeyLock) : KeyLock := { lock with leases := lock.leases + 1 }

/-- One access of the loop in `lock_key`; `e` picks the branch of `select!`. -/
def lockStep (i : Nat) (e : Bool) (s : System K) (r : Request K) (l : Nat) : LockPc → System K
  | .check =>
    if s.wounded r.tx then
      s.goto i (.leave r.key l (.returned (.conflict
        s!"tx {r.tx} wounded (wound-wait abort) before acquiring lock")))
    else s.goto i (.locking r l .enter)
  | .enter =>
    let lock := s.locks l
    match lock.guard with
    | some _ => s
    | none =>
      if lock.state.compatible r.tx r.mode then
        let state := lock.state.grant r.tx r.mode
        (s.setLock l { lock with state := state, holders := state.holders.length }).goto i
          (.leave r.key l (.returned .ok))
      else
        (s.setLock l { lock with guard := some i }).goto i
          (.locking r l (.scan lock.state.holders.length lock.state false false))
  | .scan (j + 1) state mustWait woundedAny =>
    match state.holders[j]? with
    | none => s.goto i (.locking r l (.scan j state mustWait woundedAny))
    | some h =>
      if h = r.tx then s.goto i (.locking r l (.scan j state mustWait woundedAny))
      else if r.tx < h then
        { s with wounded := update s.wounded h true }.goto i
          (.locking r l (.poke j h state mustWait))
      else s.goto i (.locking r l (.scan j state true woundedAny))
  | .poke j victim state mustWait =>
    { s with permit := update s.permit victim true }.goto i
      (.locking r l (.scan j { state with holders := swapRemove state.holders j } mustWait true))
  | .scan 0 state mustWait woundedAny =>
    let lock := s.locks l
    let state := if woundedAny then state.recomputeMode else state
    -- the surviving holders are published and the queued calls notified
    let lock := if woundedAny then { lock with holders := state.holders.length, waiting := [] }
      else lock
    if mustWait then (s.setLock l lock).goto i (.locking r l (.recheck state))
    else (s.setLock l { lock with state := state, guard := none }).goto i (.locking r l .check)
  | .recheck state =>
    if s.wounded r.tx then
      (s.setLock l { s.locks l with state := state, guard := none }).goto i
        (.leave r.key l (.returned (.conflict
          s!"tx {r.tx} wounded (wound-wait abort) while waiting")))
    else s.goto i (.locking r l (.park state))
  | .park state =>
    let lock := s.locks l
    (s.setLock l { lock with state := state, guard := none, waiting := i :: lock.waiting }).goto i
      (.locking r l .parked)
  | .parked =>
    let lock := s.locks l
    if e then
      if s.permit r.tx then
        { s.setLock l { lock with waiting := lock.waiting.filter (· != i) } with
          permit := update s.permit r.tx false }.goto i (.locking r l .check)
      else s
    else if i ∈ lock.waiting then s
    else s.goto i (.locking r l .check)

/-- What `release_locks` does behind the mutex. -/
def KeyLock.release (lock : KeyLock) (tx : Nat) : KeyLock :=
  let holders := lock.state.retain tx
  if holders.length ≠ lock.state.holders.length then
    { lock with
      state := { lock.state with holders := holders }.recomputeMode
      holders := holders.length
      waiting := [] }
  else lock

/-- The drop of a lease: the last one retires a lock that nobody holds. -/
def dropLease (s : System K) (key : K) : System K :=
  match s.registry key with
  | none => s
  | some l =>
    let lock := s.locks l
    let s' := s.setLock l { lock with leases := lock.leases - 1 }
    if lock.leases = 1 ∧ lock.holders = 0 then
      { s' with registry := update s.registry key none }
    else s'

/-- One access of call `i`. -/
def access (i : Nat) (e : Bool) (s : System K) : Pc K → System K
  | .acquire r =>
    match s.registry r.key with
    | some l => (s.setLock l (s.locks l).lease).goto i (.locking r l .check)
    | none =>
      { s.setLock s.next KeyLock.new.lease with
        registry := update s.registry r.key (some s.next)
        next := s.next + 1 }.goto i (.locking r s.next .check)
  | .locking r l pc => lockStep i e s r l pc
  | .release _ [] => s.goto i (.returned .ok)
  | .release tx (key :: keys) =>
    match s.registry key with
    | some l => (s.setLock l (s.locks l).lease).goto i (.releasing tx key l keys)
    | none => s.goto i (.release tx keys)
  | .releasing tx key l keys =>
    match (s.locks l).guard with
    | some _ => s
    | none => (s.setLock l ((s.locks l).release tx)).goto i (.leave key l (.release tx keys))
  | .leave key _ after => (dropLease s key).goto i after
  | .returned _ => s

/-- A call is dropped at an await point. -/
def cancel (i : Nat) (s : System K) : Pc K → System K
  | .acquire _ => s.goto i (.returned .cancelled)
  | .locking r l .enter => s.goto i (.leave r.key l (.returned .cancelled))
  | .locking r l .parked =>
    let lock := s.locks l
    (s.setLock l { lock with waiting := lock.waiting.filter (· != i) }).goto i
      (.leave r.key l (.returned .cancelled))
  | .releasing _ key l _ => s.goto i (.leave key l (.returned .cancelled))
  | _ => s

inductive Call (K : Type) where
  | lockKey (r : Request K)
  | releaseLocks (tx : Nat) (keys : List K)
  deriving DecidableEq

def Call.entry : Call K → Pc K
  | .lockKey r => .acquire r
  | .releaseLocks tx keys => .release tx keys

/-- The scheduler starts a call, lets call `i` perform its next access, or drops it. -/
inductive Event (K : Type) where
  | invoke (call : Call K)
  | exec (i : Nat) (e : Bool)
  | cancel (i : Nat)
  deriving DecidableEq

def step (s : System K) : Event K → System K
  | .invoke call => { s with tasks := s.tasks ++ [call.entry] }
  | .exec i e =>
    match s.tasks[i]? with
    | some pc => access i e s pc
    | none => s
  | .cancel i =>
    match s.tasks[i]? with
    | some pc => cancel i s pc
    | none => s

/-- The state after the events `es` on an empty table. -/
abbrev after (es : List (Event K)) : System K := run step .init es

/-! ## What the table promises -/

/-- A well-formed lock state. -/
structure KeyLockState.WellFormed (st : KeyLockState) : Prop where
  exclusive : st.mode = some .exclusive → st.holders.length = 1
  distinct : st.holders.Nodup
  mode_none : st.mode = none ↔ st.holders = []

/-- The lock state of a key. -/
def System.table (s : System K) (key : K) : KeyLockState :=
  match s.registry key with
  | some l => (s.locks l).state
  | none => .unheld

/-- Transaction `t` **waits for** `h`: a call of `t` is queued on a key and has not been
notified, `h` holds the key in a conflicting way, and neither is wounded. -/
def System.WaitsFor (s : System K) (t h : Nat) : Prop :=
  s.wounded t = false ∧ s.wounded h = false ∧ h ≠ t ∧
    ∃ (i : Nat) (r : Request K) (l : Nat), s.tasks[i]? = some (.locking r l .parked) ∧ r.tx = t ∧
      i ∈ (s.locks l).waiting ∧ h ∈ (s.table r.key).holders ∧
        (r.mode = .exclusive ∨ (s.table r.key).mode = some .exclusive)

/-- The transaction of a queued call. -/
def System.queuedTx (s : System K) (j : Nat) : Option Nat :=
  match s.tasks[j]? with
  | some (.locking q _ .parked) => some q.tx
  | _ => none

/-- A call that makes a transaction join the holders of a key does not overtake: no
unwounded transaction queued on that key is older. -/
def NoOvertake (s : System K) : Event K → Prop
  | .exec i _ =>
    match s.tasks[i]? with
    | some (.locking r l .enter) =>
      (s.locks l).guard = none → (s.locks l).state.compatible r.tx r.mode = true →
        (s.locks l).state.heldBy r.tx = false →
        ∀ j ∈ (s.locks l).waiting, ∀ t ∈ s.queuedTx j, s.wounded t = false → r.tx ≤ t
    | _ => True
  | _ => True

instance (s : System K) (ev : Event K) : Decidable (NoOvertake s ev) := by
  unfold NoOvertake
  split
  · split <;> infer_instance
  · infer_instance

end ShamirDb.KeyLocks
