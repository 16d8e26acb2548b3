/-
# The locks of pessimistic transactions

A transaction remembers the keys it has locked in its context, while the locks live in the
tables.  Dropping a context gives nothing back: every ending has to call
`release_pessimistic_locks`.  The model follows a transaction through all its endings:
a transactional batch, the interactive calls of the server with the registry of open
handles, the commit pipeline with its early exits, and the release of the keys one by one.

An interactive context is shared by the registry entry and by the calls that hold the
handle.  It is dropped when the last of these references goes.  The critical section of
`lock_key` is one step here; `KeyLock` takes it apart.
-/
import ShamirDb.LockInvariant

namespace ShamirDb.KeyLocks.KeyLockState

open List

/-! ## The critical section of `lock_key` -/

/-- The loop over the holders: those younger than `tx` are removed and wounded, an older
one makes `tx` wait. -/
def visit (tx : Nat) : Nat → KeyLockState → Bool → List Nat → KeyLockState × Bool × List Nat
  | 0, st, mustWait, victims => (st, mustWait, victims)
  | j + 1, st, mustWait, victims =>
    match st.holders[j]? with
    | none => visit tx j st mustWait victims
    | some h =>
      if h = tx then visit tx j st mustWait victims
      else if tx < h then
        visit tx j { st with holders := swapRemove st.holders j } mustWait (h :: victims)
      else visit tx j st true victims

/-- What an attempt to lock a key does: the new state, whether the key was granted, and the
transactions it wounds. -/
structure Attempt where
  state : KeyLockState
  granted : Bool
  mustWait : Bool
  victims : List Nat

/-- One turn of the loop in `lock_key`. -/
def attempt (st : KeyLockState) (tx : Nat) (mode : LockMode) : Attempt :=
  if st.compatible tx mode then ⟨st.grant tx mode, true, false, []⟩
  else
    let visited := st.visit tx st.holders.length false []
    ⟨if visited.2.2.isEmpty then visited.1 else visited.1.recomputeMode, false, visited.2.1,
      visited.2.2⟩

/-- What `release_locks` does to one key. -/
def release (st : KeyLockState) (tx : Nat) : KeyLockState :=
  if (st.retain tx).length ≠ st.holders.length then
    { st with holders := st.retain tx }.recomputeMode
  else st

variable {st : KeyLockState} {h : Nat}

theorem mem_visit (tx : Nat) {n : Nat} {mustWait : Bool} {victims : List Nat}
    (hh : h ∈ (st.visit tx n mustWait victims).1.holders) : h ∈ st.holders := by
  induction n generalizing st mustWait victims with
  | zero => exact hh
  | succ j ih =>
    simp only [visit] at hh
    split at hh
    case h_1 => exact ih hh
    case h_2 x hx =>
      split at hh
      · exact ih hh
      · split at hh
        · have hin := ih hh
          exact (perm_swapRemove hx).mem_iff.2 (mem_cons_of_mem x hin)
        · exact ih hh

/-- An attempt adds its own transaction at most. -/
theorem mem_attempt {tx : Nat} {mode : LockMode} (hh : h ∈ (st.attempt tx mode).state.holders) :
    h ∈ st.holders ∨ (h = tx ∧ (st.attempt tx mode).granted = true) := by
  by_cases hc : st.compatible tx mode = true
  · simp only [attempt, hc, if_true] at hh ⊢
    rcases mem_grant hh with hin | ⟨heq, -⟩
    · exact .inl hin
    · exact .inr ⟨heq, trivial⟩
  · simp only [attempt, if_neg hc] at hh
    left
    have hvisit : h ∈ (st.visit tx st.holders.length false []).1.holders := by
      split at hh
      · exact hh
      · rwa [recomputeMode_holders] at hh
    exact mem_visit tx hvisit

/-- A release takes its own transaction away. -/
theorem mem_release {tx : Nat} (hh : h ∈ (st.release tx).holders) : h ∈ st.holders ∧ h ≠ tx := by
  have hfilter : ∀ x ∈ st.retain tx, x ∈ st.holders ∧ x ≠ tx := by
    intro x hx
    obtain ⟨hin, hne⟩ := mem_filter.1 hx
    exact ⟨hin, by simpa using hne⟩
  unfold release at hh
  split at hh
  case isTrue =>
    rw [recomputeMode_holders] at hh
    exact hfilter h hh
  case isFalse hlen =>
    -- nothing was filtered out, so `tx` was no holder
    have hsame : st.retain tx = st.holders := by
      apply filter_eq_self.2
      apply length_filter_eq_length_iff.1
      exact not_not.1 hlen
    exact hfilter h (hsame ▸ hh)

end ShamirDb.KeyLocks.KeyLockState

namespace ShamirDb.TxLocks

open Machine KeyLocks

/-! ## Transactions -/

/-- The stages of the commit of a transaction, in order.  `access` is passed by an
interactive commit only; from `validate` on the commit driver owns the future. -/
inductive Stage where
  | access
  | visibilityWait
  | gateInit
  | wounded
  | expiry
  | gate
  | gateReopen
  | retention
  | wal
  | walReopen
  | prelock
  | validate
  | walQueue
  | walCompletion
  | publish
  deriving DecidableEq

def Stage.next : Stage → Option Stage
  | .access => some .visibilityWait
  | .visibilityWait => some .gateInit
  | .gateInit => some .wounded
  | .wounded => some .expiry
  | .expiry => some .gate
  | .gate => some .gateReopen
  | .gateReopen => some .retention
  | .retention => some .wal
  | .wal => some .walReopen
  | .walReopen => some .prelock
  | .prelock => some .validate
  | .validate => some .walQueue
  | .walQueue => some .walCompletion
  | .walCompletion => some .publish
  | .publish => none

/-- A dropped commit is finished by the runtime from here on. -/
def Stage.detached : Stage → Bool
  | .validate | .walQueue | .walCompletion | .publish => true
  | _ => false

/-- Where the context of a transaction is.  `releasing` gives the keys back one by one; if
it is `detached`, dropping the caller does not stop it. -/
inductive Place (K : Type) where
  | idle
  | executing
  | waiting (key : K) (mode : LockMode)
  | committing (stage : Stage)
  | releasing (detached : Bool) (todo : List K)
  | ended
  deriving DecidableEq

/-- A transaction: its registry entry, the calls that hold its handle and wait for its
context (`queued` to execute, `commits` to commit), and the keys it has recorded. -/
structure Tx (K : Type) where
  batch : Bool
  registered : Bool
  queued : Nat
  commits : Nat
  place : Place K
  locked : List K
  deriving DecidableEq

/-- How the execution of a step ends. -/
inductive StepEnd where
  | done
  | operationError
  | tooLarge
  | timedOut
  | limitExceeded
  deriving DecidableEq

/-- Why a registry entry is removed without a commit. -/
inductive Removal where
  | rollback
  | expired
  | reaped
  | sessionTeardown
  deriving DecidableEq

/-- What happens to a transaction beside its locks. -/
inductive Act where
  | executeCall
  | executeEnter
  | executeCancel
  | stepEnd (how : StepEnd)
  | stepCancel
  | remove (why : Removal)
  | commitCall
  | commitRemove
  | commitCancel
  | commitTake
  | commitStage (ok : Bool)
  | commitDrop
  deriving DecidableEq

namespace Tx

variable {K : Type}

/-- An idle context without a registry entry and without a caller is dropped. -/
def settle (tx : Tx K) : Tx K :=
  match tx.place with
  | .idle =>
    if !tx.registered && tx.queued == 0 && tx.commits == 0 then { tx with place := .ended } else tx
  | _ => tx

/-- The end of a step that ran.  A batch goes on to its commit or releases its locks; an
interactive transaction stays open unless a limit was hit. -/
def stepEnd (tx : Tx K) (how : StepEnd) : Tx K :=
  if tx.batch then
    match how with
    | .done => { tx with place := .committing .visibilityWait }
    | _ => { tx with place := .releasing false tx.locked }
  else
    match how with
    | .done | .operationError => { tx with place := .idle }.settle
    | .tooLarge | .timedOut | .limitExceeded =>
      { tx with place := .idle, registered := false }.settle

/-- One stage of the commit.  A refusal before `commit_tx` drops the context; every later
exit, and the commit itself, releases the locks. -/
def commitStage (tx : Tx K) (stage : Stage) (ok : Bool) : Tx K :=
  if ok then
    match stage.next with
    | some next => { tx with place := .committing next }
    | none => { tx with place := .releasing stage.detached tx.locked }
  else if stage = .access then { tx with place := .ended }
  else { tx with place := .releasing stage.detached tx.locked }

def act (tx : Tx K) (wounded : Bool) : Act → Tx K
  | .executeCall => if tx.registered then { tx with queued := tx.queued + 1 } else tx
  | .executeEnter =>
    match tx.place, tx.queued with
    | .idle, n + 1 => { tx with place := .executing, queued := n }
    | _, _ => tx
  | .executeCancel =>
    match tx.queued with
    | n + 1 => { tx with queued := n }.settle
    | 0 => tx
  | .stepEnd how =>
    match tx.place with
    | .executing => tx.stepEnd how
    | _ => tx
  | .stepCancel =>
    match tx.place with
    | .executing | .waiting _ _ =>
      if tx.batch then { tx with place := .ended } else { tx with place := .idle }.settle
    | _ => tx
  | .remove _ => { tx with registered := false }.settle
  | .commitCall => if tx.registered then { tx with commits := tx.commits + 1 } else tx
  | .commitRemove => if tx.commits = 0 then tx else { tx with registered := false }
  -- the commit is refused, its visibility wait is invalid, or its caller is gone
  | .commitCancel =>
    match tx.commits with
    | n + 1 => { tx with commits := n }.settle
    | 0 => tx
  | .commitTake =>
    match tx.place, tx.registered, tx.commits with
    | .idle, false, n + 1 => { tx with place := .committing .access, commits := n }
    | _, _, _ => tx
  | .commitStage ok =>
    match tx.place with
    | .committing stage => tx.commitStage stage (if stage = .wounded then !wounded else ok)
    | _ => tx
  | .commitDrop =>
    match tx.place with
    | .committing stage => if stage.detached then tx else { tx with place := .ended }
    | .releasing false _ => { tx with place := .ended }
    | _ => tx

end Tx

/-! ## The system -/

/-- The locks of all tables, the wound marks, and the transactions by number.  A key is a
table and a record key; `tables` are the tables of the repository. -/
structure System (T R : Type) where
  tables : T → Bool
  locks : T × R → KeyLockState
  wounded : Nat → Bool
  txs : Nat → Option (Tx (T × R))

inductive Event (T R : Type) where
  | begin (t : Nat) (batch : Bool)
  | act (t : Nat) (a : Act)
  | lock (t : Nat) (key : T × R) (mode : LockMode)
  | retry (t : Nat)
  | release (t : Nat)
  | dropTable (table : T)
  deriving DecidableEq

variable {T R : Type} [DecidableEq T] [DecidableEq R]

namespace System

def init (tables : T → Bool) : System T R := ⟨tables, fun _ => .unheld, fun _ => false, fun _ => none⟩

def setTx (s : System T R) (t : Nat) (tx : Tx (T × R)) : System T R :=
  { s with txs := Function.update s.txs t (some tx) }

/-- One attempt of a running step to lock a key.  A wounded transaction gets a conflict,
which fails its operation; a granted key is recorded in the context. -/
def lock (s : System T R) (t : Nat) (tx : Tx (T × R)) (key : T × R) (mode : LockMode) :
    System T R :=
  if s.wounded t then s.setTx t { tx with place := .executing }
  else
    let a := (s.locks key).attempt t mode
    let s' := { s with
      locks := Function.update s.locks key a.state
      wounded := fun h => s.wounded h || h ∈ a.victims }
    if a.granted then s'.setTx t { tx with place := .executing, locked := tx.locked.insert key }
    else s'.setTx t { tx with place := .waiting key mode }

/-- One key is given back; a table that is gone is skipped. -/
def release (s : System T R) (t : Nat) (tx : Tx (T × R)) : System T R :=
  match tx.place with
  | .releasing _ [] => s.setTx t { tx with place := .ended }
  | .releasing detached (key :: todo) =>
    let s' := if s.tables key.1 then
      { s with locks := Function.update s.locks key ((s.locks key).release t) } else s
    s'.setTx t { tx with place := .releasing detached todo }
  | _ => s

end System

def step (s : System T R) : Event T R → System T R
  | .begin t batch =>
    match s.txs t with
    | none => s.setTx t ⟨batch, !batch, 0, 0, if batch then .executing else .idle, []⟩
    | some _ => s
  | .act t a =>
    match s.txs t with
    | some tx => s.setTx t (tx.act (s.wounded t) a)
    | none => s
  | .lock t key mode =>
    match s.txs t with
    | some tx => if tx.place = .executing then s.lock t tx key mode else s
    | none => s
  | .retry t =>
    match s.txs t with
    | some tx =>
      match tx.place with
      | .waiting key mode => s.lock t tx key mode
      | _ => s
    | none => s
  | .release t =>
    match s.txs t with
    | some tx => s.release t tx
    | none => s
  | .dropTable table => { s with tables := Function.update s.tables table false }

/-- The state after the events `es` on a repository with the given tables. -/
abbrev after (tables : T → Bool) (es : List (Event T R)) : System T R := run step (.init tables) es

/-- A step that drops the context of a transaction finds none of its keys locked by it. -/
def DropsUnlocked (s : System T R) : Event T R → Prop
  | .act t a =>
    match s.txs t with
    | some tx => (tx.act (s.wounded t) a).place = .ended →
        ∀ key ∈ tx.locked, s.tables key.1 = true → t ∉ (s.locks key).holders
    | none => True
  | _ => True

instance (s : System T R) (ev : Event T R) : Decidable (DropsUnlocked s ev) := by
  unfold DropsUnlocked
  split
  · split <;> infer_instance
  · infer_instance

/-- A step drops no context that has recorded a key: the transactions with locks end by the
release loop. -/
def DropsUnrecorded (s : System T R) : Event T R → Prop
  | .act t a =>
    match s.txs t with
    | some tx => tx.place ≠ .ended → (tx.act (s.wounded t) a).place = .ended → tx.locked = []
    | none => True
  | _ => True

/-! ## Every holder will give its key back -/

/-- The transaction still has to give `key` back. -/
def Tx.Owes {K : Type} (tx : Tx K) (key : K) : Prop :=
  match tx.place with
  | .ended => False
  | .releasing _ todo => key ∈ todo ∧ key ∈ tx.locked
  | _ => key ∈ tx.locked

/-- Every holder of a key of a table owes it. -/
def Owed (s : System T R) : Prop :=
  ∀ t key, s.tables key.1 = true → t ∈ (s.locks key).holders → ∃ tx, s.txs t = some tx ∧ tx.Owes key

section

variable {K : Type} {tx : Tx K} {key : K}

/-- An idle context that is not dropped owes its locks. -/
theorem Tx.Owes.settle (h : key ∈ tx.locked) (hplace : tx.place = .idle)
    (hlive : tx.settle.place ≠ .ended) : tx.settle.Owes key := by
  unfold Tx.settle at hlive ⊢
  rw [hplace] at hlive ⊢
  simp only
  split
  case isTrue hdrop =>
    rw [if_pos hdrop] at hlive
    exact absurd rfl hlive
  case isFalse =>
    unfold Tx.Owes
    rw [hplace]
    exact h

/-- Settling leaves a transaction that is not idle alone. -/
theorem Tx.settle_of_ne (hplace : tx.place ≠ .idle) : tx.settle = tx := by
  unfold Tx.settle
  split
  case h_1 heq => exact absurd heq hplace
  case h_2 => rfl

/-- Settling a transaction that owes a key drops it or keeps the debt. -/
theorem Tx.Owes.settle_or (h : tx.Owes key) (hlive : tx.settle.place ≠ .ended) :
    tx.settle.Owes key := by
  by_cases hidle : tx.place = .idle
  · refine Tx.Owes.settle ?_ hidle hlive
    unfold Tx.Owes at h
    rw [hidle] at h
    exact h
  · rw [Tx.settle_of_ne hidle]
    exact h

theorem Tx.Owes.mem_locked (h : tx.Owes key) : key ∈ tx.locked := by
  unfold Tx.Owes at h
  split at h
  · exact h.elim
  · exact h.2
  · exact h

/-- So does one whose step ends. -/
theorem Tx.Owes.stepEnd (h : key ∈ tx.locked) (how : StepEnd)
    (hlive : (tx.stepEnd how).place ≠ .ended) : (tx.stepEnd how).Owes key := by
  unfold Tx.stepEnd at hlive ⊢
  by_cases hb : tx.batch = true
  · simp only [hb]
    cases how with
    | done => exact h
    | _ => exact ⟨h, h⟩
  · simp only [if_neg hb] at hlive ⊢
    cases how <;> exact Tx.Owes.settle h rfl hlive

/-- And one that commits. -/
theorem Tx.Owes.commitStage (h : key ∈ tx.locked) (stage : Stage) (ok : Bool)
    (hlive : (tx.commitStage stage ok).place ≠ .ended) : (tx.commitStage stage ok).Owes key := by
  unfold Tx.commitStage at hlive ⊢
  cases ok with
  | true =>
    simp only [if_true]
    split
    · exact h
    · exact ⟨h, h⟩
  | false =>
    simp only [Bool.false_eq_true, if_false]
    split
    case isTrue heq =>
      rw [if_pos heq] at hlive
      exact absurd rfl hlive
    case isFalse => exact ⟨h, h⟩

/-- Whatever happens to a transaction beside its locks, it keeps its debts or is dropped. -/
theorem Tx.Owes.act (h : tx.Owes key) (wounded : Bool) (a : Act)
    (hlive : (tx.act wounded a).place ≠ .ended) : (tx.act wounded a).Owes key := by
  cases a with ((simp only [Tx.act] at hlive ⊢; try split at hlive) <;> try exact h)
  | executeCall | commitCall | commitRemove => split <;> exact h
  | executeEnter | commitTake => exact h.mem_locked
  | executeCancel | commitCancel | remove _ => exact Tx.Owes.settle_or h hlive
  | stepEnd how => exact Tx.Owes.stepEnd h.mem_locked how hlive
  | stepCancel =>
    by_cases hb : tx.batch = true
    · rw [if_pos hb] at hlive
      exact absurd rfl hlive
    · rw [if_neg hb] at hlive ⊢
      exact Tx.Owes.settle h.mem_locked rfl hlive
  | commitStage ok => exact Tx.Owes.commitStage h.mem_locked _ _ hlive
  | commitDrop =>
    first
    | exact absurd rfl hlive
    | split at hlive
      · rw [if_pos ‹_›]
        exact h
      · exact absurd rfl hlive

end

/-! ## Steps and runs -/

section

variable {s : System T R} {t : Nat} {tx : Tx (T × R)}

omit [DecidableEq T] [DecidableEq R] in
/-- A change of one transaction: the others keep their debts, and it owes what it holds. -/
theorem owed_setTx
    (hother : ∀ u key, u ≠ t → s.tables key.1 = true → u ∈ (s.locks key).holders →
      ∃ ux, s.txs u = some ux ∧ ux.Owes key)
    (hself : ∀ key, s.tables key.1 = true → t ∈ (s.locks key).holders → tx.Owes key) :
    Owed (s.setTx t tx) := by
  intro u key htable hholds
  by_cases hu : u = t
  · subst hu
    exact ⟨tx, Function.update_self .., hself key htable hholds⟩
  · obtain ⟨ux, hux, howes⟩ := hother u key hu htable hholds
    exact ⟨ux, (Function.update_of_ne hu ..).trans hux, howes⟩

omit [DecidableEq T] [DecidableEq R] in
/-- The debts of the transaction that `s` has under the number `t`. -/
theorem Owed.owes (h : Owed s) (htx : s.txs t = some tx) {key : T × R}
    (htable : s.tables key.1 = true) (hholds : t ∈ (s.locks key).holders) : tx.Owes key := by
  obtain ⟨tx', htx', howes⟩ := h t key htable hholds
  rw [htx, Option.some.injEq] at htx'
  rwa [htx']

/-- A lock is taken. -/
theorem Owed.lock (h : Owed s) (htx : s.txs t = some tx)
    (hrun : ∀ key, tx.Owes key → key ∈ tx.locked) (key : T × R) (mode : LockMode) :
    Owed (s.lock t tx key mode) := by
  have hlocked : ∀ k, s.tables k.1 = true → t ∈ (s.locks k).holders → k ∈ tx.locked := by
    intro k htable hholds
    exact hrun k (h.owes htx htable hholds)
  unfold System.lock
  split
  case isTrue => exact owed_setTx (fun u k _ => h u k) hlocked
  case isFalse =>
    -- who holds a key now either held it before or has just been granted it
    have hold : ∀ u k,
        u ∈ (Function.update s.locks key ((s.locks key).attempt t mode).state k).holders →
        u ∈ (s.locks k).holders ∨
          (u = t ∧ k = key ∧ ((s.locks key).attempt t mode).granted = true) := by
      intro u k hu
      by_cases hk : k = key
      · subst hk
        rw [Function.update_self] at hu
        rcases KeyLockState.mem_attempt hu with hin | ⟨heq, hgranted⟩
        · exact .inl hin
        · exact .inr ⟨heq, rfl, hgranted⟩
      · rw [Function.update_of_ne hk] at hu
        exact .inl hu
    simp only
    split
    case isTrue =>
      apply owed_setTx
      · intro u k hu htable hholds
        rcases hold u k hholds with hin | ⟨heq, -⟩
        · exact h u k htable hin
        · exact absurd heq hu
      · intro k htable hholds
        rcases hold t k hholds with hin | ⟨-, rfl, -⟩
        · exact List.mem_insert_of_mem (hlocked k htable hin)
        · exact List.mem_insert_self
    case isFalse hdenied =>
      apply owed_setTx
      · intro u k hu htable hholds
        rcases hold u k hholds with hin | ⟨heq, -⟩
        · exact h u k htable hin
        · exact absurd heq hu
      · intro k htable hholds
        rcases hold t k hholds with hin | ⟨-, -, hgranted⟩
        · exact hlocked k htable hin
        · exact absurd hgranted hdenied

/-- Locks are released. -/
theorem Owed.release (h : Owed s) (htx : s.txs t = some tx) : Owed (s.release t tx) := by
  unfold System.release
  split
  case h_1 detached hplace =>
    apply owed_setTx (fun u k _ => h u k)
    intro k htable hholds
    have howes := h.owes htx htable hholds
    simp [Tx.Owes, hplace] at howes
  case h_2 detached key todo hplace =>
    have htodo : ∀ k, s.tables k.1 = true → t ∈ (s.locks k).holders →
        (k = key ∨ k ∈ todo) ∧ k ∈ tx.locked := by
      intro k htable hholds
      have howes := h.owes htx htable hholds
      simpa [Tx.Owes, hplace] using howes
    by_cases hkey : s.tables key.1 = true
    · simp only [if_pos hkey]
      have hheld : ∀ u k, u ∈ (Function.update s.locks key ((s.locks key).release t) k).holders →
          u ∈ (s.locks k).holders ∧ (k = key → u ≠ t) := by
        intro u k hu
        by_cases hk : k = key
        · subst hk
          rw [Function.update_self] at hu
          obtain ⟨hin, hne⟩ := KeyLockState.mem_release hu
          exact ⟨hin, fun _ => hne⟩
        · rw [Function.update_of_ne hk] at hu
          exact ⟨hu, fun hk' => absurd hk' hk⟩
      apply owed_setTx
      · intro u k _ htable hholds
        exact h u k htable (hheld u k hholds).1
      · intro k htable hholds
        obtain ⟨hin, hne⟩ := hheld t k hholds
        obtain ⟨heq | hmem, hlocked⟩ := htodo k htable hin
        · exact absurd rfl (hne heq)
        · exact ⟨hmem, hlocked⟩
    · simp only [if_neg hkey]
      apply owed_setTx (fun u k _ => h u k)
      intro k htable hholds
      obtain ⟨heq | hmem, hlocked⟩ := htodo k htable hholds
      · rw [heq] at htable
        exact absurd htable hkey
      · exact ⟨hmem, hlocked⟩
  case h_3 => exact h

/-- One step keeps the debts, unless it drops a context whose keys are locked. -/
theorem Owed.step (h : Owed s) (ev : Event T R) (hev : DropsUnlocked s ev) :
    Owed (TxLocks.step s ev) := by
  cases ev with (try (simp only [TxLocks.step]; repeat' split) <;> try exact h)
  | begin t batch =>
    rename_i hnone _
    apply owed_setTx (fun u k _ => h u k)
    intro k htable hholds
    obtain ⟨tx, htx, -⟩ := h t k htable hholds
    rw [hnone] at htx
    simp at htx
  | act t a =>
    rename_i tx htx
    apply owed_setTx (fun u k _ => h u k)
    intro k htable hholds
    have howes := h.owes htx htable hholds
    apply howes.act
    intro hended
    simp only [DropsUnlocked, htx] at hev
    exact hev hended k howes.mem_locked htable hholds
  | lock t key mode => exact h.lock ‹_› (fun k hk => hk.mem_locked) key mode
  | retry t => exact h.lock ‹_› (fun k hk => hk.mem_locked) _ _
  | release t => exact h.release ‹_›
  | dropTable table =>
    intro u k htable hholds
    have hne : k.1 ≠ table := by
      rintro rfl
      simp at htable
    exact h u k ((Function.update_of_ne hne ..).symm.trans htable) hholds

omit [DecidableEq T] [DecidableEq R] in
/-- A transaction that is over and whose debts are kept holds nothing. -/
theorem Owed.ended (h : Owed s) (htx : s.txs t = some tx) (hended : tx.place = .ended)
    {key : T × R} (htable : s.tables key.1 = true) : t ∉ (s.locks key).holders := by
  intro hholds
  have howes := h.owes htx htable hholds
  simp [Tx.Owes, hended] at howes

/-- While the debts are kept, a context without recorded keys has none locked. -/
theorem Owed.dropsUnlocked (h : Owed s) {ev : Event T R} (hev : DropsUnrecorded s ev) :
    DropsUnlocked s ev := by
  cases ev with
  | act t a =>
    cases htx : s.txs t with
    | none => simp [DropsUnlocked, htx]
    | some tx =>
      simp only [DropsUnlocked, DropsUnrecorded, htx] at hev ⊢
      intro hdropped key hkey htable
      by_cases hended : tx.place = .ended
      · exact h.ended htx hended htable
      · rw [hev hended hdropped] at hkey
        exact absurd hkey List.not_mem_nil
  | _ => trivial

end

omit [DecidableEq T] [DecidableEq R] in
/-- No transaction holds a lock. -/
theorem owed_init (tables : T → Bool) : Owed (.init tables : System T R) :=
  fun _ _ _ hholds => absurd hholds List.not_mem_nil

/-- In every run whose steps drop a context only when none of its keys is locked, a
transaction that is over holds no lock: whether it committed, was rolled back, ran into a
limit, expired, was reaped or lost its session. -/
theorem ended_holds_no_lock (tables : T → Bool) (es : List (Event T R))
    (hes : Along step DropsUnlocked (.init tables) es) :
    ∀ t tx, (after tables es).txs t = some tx → tx.place = .ended →
      ∀ key, (after tables es).tables key.1 = true →
        t ∉ ((after tables es).locks key).holders := by
  have howed : Owed (after tables es) :=
    along_invariant (I := Owed) (fun s ev h hev => h.step ev hev) (owed_init tables) hes
  exact fun t tx htx hended key htable => howed.ended htx hended htable

/-- **The same by what the transactions did**: in every run in which no context with a recorded key
is dropped outside the release loops, a transaction that is over holds no lock. -/
theorem ended_holds_nothing_recorded (tables : T → Bool) (es : List (Event T R))
    (hes : Along step DropsUnrecorded (.init tables) es) :
    ∀ t tx, (after tables es).txs t = some tx → tx.place = .ended →
      ∀ key, (after tables es).tables key.1 = true →
        t ∉ ((after tables es).locks key).holders := by
  have howed : Owed (after tables es) :=
    along_invariant (I := Owed) (fun s ev h hev => h.step ev (h.dropsUnlocked hev))
      (owed_init tables) hes
  exact fun t tx htx hended key htable => howed.ended htx hended htable

/-- A batch that locks two keys and commits has given both back. -/
theorem ended_holds_no_lock_batch :
    let es : List (Event Nat Nat) :=
      [.begin 1 true, .lock 1 (0, 0) .exclusive, .lock 1 (0, 1) .shared, .act 1 (.stepEnd .done)] ++
        List.replicate 14 (.act 1 (.commitStage true)) ++ [.release 1, .release 1, .release 1]
    (∃ tx, (after (fun _ => true) es).txs 1 = some tx ∧ tx.place = .ended) ∧
      1 ∉ ((after (fun _ => true) es).locks (0, 0)).holders := by
  intro es
  refine ⟨⟨_, rfl, by decide⟩, ?_⟩
  exact ended_holds_no_lock (fun _ => true) es (by decide) 1 _ rfl (by decide) (0, 0) (by decide)

/-- An interactive transaction locks a key and is rolled back: it is over, its context is
gone, and it holds the key. -/
theorem rolled_back_holds_lock :
    let s := after (fun _ : Nat => true)
      [.begin 1 false, .act 1 .executeCall, .act 1 .executeEnter, .lock 1 (0, 0) .exclusive,
        .act 1 (.stepEnd .done), .act 1 (.remove .rollback)]
    s.txs 1 = some ⟨false, false, 0, 0, .ended, [((0 : Nat), (0 : Nat))]⟩ ∧
      (s.locks (0, 0)).holders = [1] ∧ s.tables 0 = true := by
  decide

end ShamirDb.TxLocks
