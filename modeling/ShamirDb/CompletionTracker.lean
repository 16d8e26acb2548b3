/-
# The completion tracker

`CompletionTracker` keeps, for the versions above a published watermark, whether each
is settled, and moves the watermark over the settled ones.  `mark` and
`settle_through` run concurrently, so the model executes them one atomic access at a
time: a load of the watermark, one operation of the concurrent map, one
`compare_exchange_weak` (which may fail for no reason).  A call in flight is a task
with a program counter, and an event says which task moves next.

Versions are natural numbers: a `u64` watermark reaches its last value only after
`2 ^ 64` versions have been settled.
-/
import Mathlib.Data.List.Induction
import Mathlib.Order.Bounds.Basic
import Mathlib.Tactic.Common
import ShamirDb.Machine

namespace ShamirDb.CompletionTracker

open Machine Function List Option

/-! ## The tracker -/

/-- Terminal state of a version slot. -/
inductive State where
  | pending
  | materialized
  | aborted
  deriving DecidableEq

/-- `matches!(s, State::Materialized | State::Aborted)`. -/
def State.completed : State → Bool
  | .pending => false
  | .materialized | .aborted => true

/-- The shared fields: the published watermark and the sparse map of slots. -/
structure Tracker where
  watermark : Nat
  states : Nat → Option State

/-- `with_watermark`: a tracker whose watermark is pre-seeded. -/
def withWatermark (initial : Nat) : Tracker := ⟨initial, fun _ => none⟩

namespace Tracker

/-- Slot `v` holds a terminal state. -/
def Completed (t : Tracker) (v : Nat) : Prop := ∃ s, t.states v = some s ∧ s.completed

instance (t : Tracker) (v : Nat) : Decidable (t.Completed v) :=
  decidable_of_iff ((t.states v).any State.completed = true) <| by
    cases h : t.states v <;> simp [Completed, h]

/-- `states.insert_sync(version, state)`: an occupied slot is left as it is. -/
def insertSync (t : Tracker) (v : Nat) (s : State) : Tracker :=
  match t.states v with
  | some _ => t
  | none => { t with states := update t.states v (some s) }

/-- The slot access of `settle_through`: pending becomes materialized, vacant becomes
aborted, a terminal state is preserved. -/
def settleSlot (t : Tracker) (v : Nat) : Tracker :=
  match t.states v with
  | some .pending => { t with states := update t.states v (some .materialized) }
  | some _ => t
  | none => { t with states := update t.states v (some .aborted) }

/-- `states.remove_sync(&v)`. -/
def removeSync (t : Tracker) (v : Nat) : Tracker :=
  { t with states := update t.states v none }

end Tracker

/-! ## Calls in flight -/

/-- A call made on the tracker. -/
inductive Call where
  | mark (version : Nat) (state : State)
  | settleThrough (version : Nat)
  deriving DecidableEq

/-- The call settles version `v`. -/
def Call.Settles : Call → Nat → Prop
  | .mark version state, v => v = version ∧ state.completed
  | .settleThrough version, v => v ≤ version

/-- Where `try_advance` returns to: out of the call, or to the next slot of the
`settle_through` loop, `slot` being the one just settled. -/
inductive Resume where
  | finish
  | settleNext (version slot : Nat)
  deriving DecidableEq

/-- The next atomic access of a call.  `advance*` are the accesses of `try_advance`;
`current` is the watermark it loaded. -/
inductive Pc where
  | markLoad (version : Nat) (state : State)
  | markInsert (version : Nat) (state : State)
  | settleLoad (version : Nat)
  | settleEntry (version slot : Nat)
  | advanceLoad (back : Resume)
  | advanceRead (back : Resume) (current : Nat)
  | advanceCas (back : Resume) (current : Nat)
  | advanceRemove (back : Resume) (next : Nat)
  | returned
  deriving DecidableEq

/-- Where a fresh call starts. -/
def Call.entry : Call → Pc
  | .mark version state => .markLoad version state
  | .settleThrough version => .settleLoad version

/-- `try_advance` broke out of its loop. -/
def Resume.leave : Resume → Pc
  | .finish => .returned
  | .settleNext version slot =>
    if slot < version then .settleEntry version (slot + 1) else .returned

/-- One atomic access of a call.  `weak` is the scheduler's choice to let a
`compare_exchange_weak` fail spuriously. -/
def access (weak : Bool) (t : Tracker) : Pc → Tracker × Pc
  | .markLoad version state =>
    if version ≤ t.watermark then (t, .returned) else (t, .markInsert version state)
  | .markInsert version state => (t.insertSync version state, .advanceLoad .finish)
  | .settleLoad version =>
    if version ≤ t.watermark then (t, .returned)
    else (t, .settleEntry version (t.watermark + 1))
  | .settleEntry version slot =>
    (t.settleSlot slot, .advanceLoad (.settleNext version slot))
  | .advanceLoad back => (t, .advanceRead back t.watermark)
  | .advanceRead back current =>
    if t.Completed (current + 1) then (t, .advanceCas back current) else (t, back.leave)
  | .advanceCas back current =>
    if t.watermark = current ∧ weak = false then
      ({ t with watermark := current + 1 }, .advanceRemove back (current + 1))
    else (t, .advanceLoad back)
  | .advanceRemove back next => (t.removeSync next, .advanceLoad back)
  | .returned => (t, .returned)

/-- A call and its program counter. -/
structure Task where
  call : Call
  pc : Pc
  deriving DecidableEq

/-- The tracker and the calls made on it so far. -/
structure System where
  tracker : Tracker
  tasks : Nat → Option Task

/-- The scheduler starts a call under a fresh name, or lets one call in flight perform
its next access. -/
inductive Event where
  | invoke (i : Nat) (call : Call)
  | exec (i : Nat) (weak : Bool)
  deriving DecidableEq

def step (s : System) : Event → System
  | .invoke i call =>
    match s.tasks i with
    | none => { s with tasks := update s.tasks i (some ⟨call, call.entry⟩) }
    | some _ => s
  | .exec i weak =>
    match s.tasks i with
    | none => s
    | some task =>
      let r := access weak s.tracker task.pc
      ⟨r.1, update s.tasks i (some ⟨task.call, r.2⟩)⟩

def init (start : Nat) : System := ⟨withWatermark start, fun _ => none⟩

/-- The state after the events `es` on a tracker seeded with `start`. -/
abbrev after (start : Nat) (es : List Event) : System := run step (init start) es

/-- Every call made so far has returned. -/
def System.Quiescent (s : System) : Prop := ∀ i task, s.tasks i = some task → task.pc = .returned

/-- The versions passed to `mark`, in the order of the calls. -/
def markedVersions (es : List Event) : List Nat :=
  es.filterMap fun
    | .invoke _ (.mark version _) => some version
    | _ => none

/-- No two calls mark the same version. -/
def System.DistinctMarks (s : System) : Prop :=
  ∀ i j v w a b pi pj, s.tasks i = some ⟨.mark v a, pi⟩ → s.tasks j = some ⟨.mark w b, pj⟩ →
    v = w → i = j

/-- Some call made so far settles version `v`. -/
def System.Settled (s : System) (v : Nat) : Prop :=
  ∃ i task, s.tasks i = some task ∧ task.call.Settles v

/-- At some moment of the run slot `v` held a terminal state. -/
def CompletedDuring (start : Nat) (es : List Event) (v : Nat) : Prop :=
  ∃ fs, fs <+: es ∧ (after start fs).tracker.Completed v

/-! ## What one access can do -/

namespace Tracker

/-- Version `v` needs no further work: the watermark passed it, or its slot waits in
the map for the watermark to come. -/
def Covered (t : Tracker) (v : Nat) : Prop := v ≤ t.watermark ∨ t.Completed v

variable {v : Nat}

/-- Completion of a slot depends on that slot only. -/
theorem completed_congr {t u : Tracker} (h : t.states v = u.states v) :
    t.Completed v ↔ u.Completed v := by
  simp [Completed, h]

@[simp] theorem watermark_insertSync (t : Tracker) (v : Nat) (s : State) :
    (t.insertSync v s).watermark = t.watermark := by
  unfold insertSync; split <;> rfl

@[simp] theorem watermark_settleSlot (t : Tracker) (v : Nat) :
    (t.settleSlot v).watermark = t.watermark := by
  unfold settleSlot; split <;> rfl

@[simp] theorem watermark_removeSync (t : Tracker) (v : Nat) :
    (t.removeSync v).watermark = t.watermark := rfl

variable {w : Nat}

theorem states_insertSync_of_ne (t : Tracker) (s : State) (h : w ≠ v) :
    (t.insertSync v s).states w = t.states w := by
  unfold insertSync; split <;> simp [update_of_ne h]

theorem states_settleSlot_of_ne (t : Tracker) (h : w ≠ v) :
    (t.settleSlot v).states w = t.states w := by
  unfold settleSlot; split <;> simp [update_of_ne h]

theorem states_removeSync_of_ne (t : Tracker) (h : w ≠ v) :
    (t.removeSync v).states w = t.states w := by
  simp [removeSync, update_of_ne h]

/-- The slot access of `settle_through` leaves its slot completed. -/
theorem completed_settleSlot_self (t : Tracker) (v : Nat) : (t.settleSlot v).Completed v := by
  cases h : t.states v with
  | none => exact ⟨.aborted, by simp [settleSlot, h], rfl⟩
  | some s =>
    cases s with
    | pending | materialized => exact ⟨.materialized, by simp [settleSlot, h], rfl⟩
    | aborted => exact ⟨.aborted, by simp [settleSlot, h], rfl⟩

/-- An inserted outcome counts unless the slot is pending. -/
theorem completed_insertSync_self {t : Tracker} {s : State} (hs : s.completed)
    (hp : t.states v ≠ some .pending) : (t.insertSync v s).Completed v := by
  cases h : t.states v with
  | none => exact ⟨s, by simp [Tracker.insertSync, h], hs⟩
  | some a =>
    cases a with
    | pending => exact absurd h hp
    | materialized => exact ⟨.materialized, by simp [Tracker.insertSync, h], rfl⟩
    | aborted => exact ⟨.aborted, by simp [Tracker.insertSync, h], rfl⟩

end Tracker

/-- The accesses of `try_advance` that run again before the call returns: a task there
still owes a look at the slot above the watermark. -/
def Pc.Advancing (pc : Pc) (watermark : Nat) : Prop :=
  match pc with
  | .advanceLoad _ | .advanceCas .. | .advanceRemove .. => True
  | .advanceRead _ current => current = watermark
  | _ => False

/-- **What an access does to the watermark**: only a successful exchange moves it, by one. -/
theorem watermark_access (weak : Bool) (t : Tracker) (pc : Pc) :
    (access weak t pc).1.watermark = t.watermark ∨
      ∃ back, pc = .advanceCas back t.watermark ∧
        (access weak t pc).1.watermark = t.watermark + 1 := by
  cases pc with
  | advanceCas back current =>
    simp only [access]
    split
    case isTrue hcas => exact .inr ⟨back, by rw [hcas.1], by rw [hcas.1]⟩
    case isFalse => exact .inl rfl
  | markLoad | settleLoad | advanceRead =>
    simp only [access]
    split <;> exact .inl rfl
  | markInsert | settleEntry => simp [access]
  | advanceLoad | advanceRemove | returned => exact .inl rfl

/-- No access lowers the watermark. -/
theorem watermark_le_access (weak : Bool) (t : Tracker) (pc : Pc) :
    t.watermark ≤ (access weak t pc).1.watermark := by
  rcases watermark_access weak t pc with hw | ⟨back, -, hw⟩ <;> omega

variable {task : Task} {S S' : Nat → Prop} {t u : Tracker} {start : Nat} {v : Nat} {es : List Event}
  {weak : Bool} {s : System} {i : Nat} {call : Call} {e : Event}

/-- **What an access does to a slot**: it stays as it is, an empty one takes the state of a
`mark`, it is settled, or it goes. -/
theorem states_access (weak : Bool) (t : Tracker) (pc : Pc) (v : Nat) :
    (access weak t pc).1.states v = t.states v ∨
      (∃ a, pc = .markInsert v a ∧ t.states v = none ∧ (access weak t pc).1.states v = some a) ∨
      (∃ version, pc = .settleEntry version v ∧ (access weak t pc).1.Completed v) ∨
      ∃ back, pc = .advanceRemove back v ∧ (access weak t pc).1.states v = none := by
  cases pc with
  | markInsert version state =>
    by_cases hv : v = version
    · subst hv
      cases hs : t.states v with
      | none => exact .inr (.inl ⟨state, rfl, rfl, by simp [access, Tracker.insertSync, hs]⟩)
      | some a => exact .inl (by simp [access, Tracker.insertSync, hs])
    · exact .inl (Tracker.states_insertSync_of_ne t state hv)
  | settleEntry version slot =>
    by_cases hv : v = slot
    · subst hv
      exact .inr (.inr (.inl ⟨version, rfl, Tracker.completed_settleSlot_self t v⟩))
    · exact .inl (Tracker.states_settleSlot_of_ne t hv)
  | advanceRemove back next =>
    by_cases hv : v = next
    · subst hv
      exact .inr (.inr (.inr ⟨back, rfl, update_self ..⟩))
    · exact .inl (Tracker.states_removeSync_of_ne t hv)
  | markLoad | settleLoad | advanceRead | advanceCas =>
    simp only [access]
    split <;> exact .inl rfl
  | advanceLoad | returned => exact .inl rfl

/-- A removal is only of a slot the watermark passed, so nothing that was covered is
lost by an access. -/
theorem covered_access (weak : Bool) (pc : Pc)
    (hr : ∀ back next, pc = .advanceRemove back next → next ≤ t.watermark) (h : t.Covered v) :
    (access weak t pc).1.Covered v := by
  have hw := watermark_le_access weak t pc
  rcases h with h | h
  · exact .inl (h.trans hw)
  rcases states_access weak t pc v with hsame | ⟨a, -, hnone, -⟩ | ⟨version, -, hdone⟩ | ⟨back, hpc, -⟩
  · exact .inr ((Tracker.completed_congr hsame).2 h)
  · simp [Tracker.Completed, hnone] at h
  · exact .inr hdone
  · exact .inl ((hr back v hpc).trans hw)

/-- What a task waits to return to has been done up to this point. -/
def Resume.Done (t : Tracker) (call : Call) : Resume → Prop
  | .finish => ∀ v, call.Settles v → t.Covered v
  | .settleNext version slot =>
    call = .settleThrough version ∧ slot ≤ version ∧ ∀ w ≤ slot, t.Covered w

/-- What a call has achieved by its program counter; `settled` is the set of versions
some slot access has completed. -/
def Task.Progress (t : Tracker) (settled : Nat → Prop) (task : Task) : Prop :=
  match task.pc with
  | .markLoad version state | .markInsert version state => task.call = .mark version state
  | .settleLoad version => task.call = .settleThrough version
  | .settleEntry version slot =>
    task.call = .settleThrough version ∧ slot ≤ version ∧ ∀ w < slot, t.Covered w
  | .advanceLoad back | .advanceRead back _ => back.Done t task.call
  | .advanceCas back current => back.Done t task.call ∧ settled (current + 1)
  | .advanceRemove back next => back.Done t task.call ∧ next ≤ t.watermark
  | .returned => ∀ v, task.call.Settles v → t.Covered v

/-- A call that is done stays done. -/
theorem Resume.Done.mono {t : Tracker} {back : Resume} (hc : ∀ v, t.Covered v → u.Covered v)
    (h : back.Done t call) : back.Done u call := by
  cases back with
  | finish => exact fun v hv => hc v (h v hv)
  | settleNext version slot => exact ⟨h.1, h.2.1, fun w hw => hc w (h.2.2 w hw)⟩

variable {S : Nat → Prop}

/-- Progress survives whatever the other calls do. -/
theorem Task.Progress.mono {t : Tracker} (hw : t.watermark ≤ u.watermark)
    (hc : ∀ v, t.Covered v → u.Covered v) (hS : ∀ v, S v → S' v) (h : task.Progress t S) :
    task.Progress u S' := by
  obtain ⟨call, pc⟩ := task
  cases pc with
  | markLoad | markInsert | settleLoad => exact h
  | settleEntry version slot => exact ⟨h.1, h.2.1, fun w hlt => hc w (h.2.2 w hlt)⟩
  | advanceLoad back | advanceRead back current => exact Resume.Done.mono hc h
  | advanceCas back current => exact ⟨Resume.Done.mono hc h.1, hS _ h.2⟩
  | advanceRemove back next => exact ⟨Resume.Done.mono hc h.1, h.2.trans hw⟩
  | returned => exact fun v hv => hc v (h v hv)

/-- Leaving `try_advance` keeps the progress made. -/
theorem Resume.Done.leave {back : Resume} (h : back.Done t call) :
    Task.Progress t S ⟨call, back.leave⟩ := by
  cases back with
  | finish => exact h
  | settleNext version slot =>
    obtain ⟨hcall, hle, hcov⟩ := h
    by_cases hlt : slot < version
    · have : (Resume.settleNext version slot).leave = .settleEntry version (slot + 1) := by
        simp [Resume.leave, hlt]
      rw [this]
      exact ⟨hcall, hlt, fun w hw => hcov w (Nat.lt_succ_iff.1 hw)⟩
    · have : (Resume.settleNext version slot).leave = .returned := by simp [Resume.leave, hlt]
      rw [this]
      intro v hv
      rw [hcall] at hv
      exact hcov v (le_trans hv (not_lt.1 hlt))

/-- **Progress step.**  An access of a call keeps the call's own progress; a `mark` must
not find its slot pending, which distinct marks guarantee. -/
theorem progress_access (hS : ∀ v, t.Completed v → S v)
    (hp : ∀ v a, task.call = .mark v a → a.completed → t.states v ≠ some .pending)
    (h : task.Progress t S) :
    Task.Progress (access weak t task.pc).1 S ⟨task.call, (access weak t task.pc).2⟩ := by
  obtain ⟨call, pc⟩ := task
  cases pc with
  | markLoad version state =>
    simp only [access]
    split
    case isTrue hle =>
      intro v hv
      cases (h : call = _)
      exact .inl (hv.1 ▸ hle)
    case isFalse => exact h
  | markInsert version state =>
    cases (h : call = _)
    rintro v ⟨rfl, hcomp⟩
    exact .inr (Tracker.completed_insertSync_self hcomp (hp _ _ rfl hcomp))
  | settleLoad version =>
    cases (h : call = _)
    simp only [access]
    split
    case isTrue hle => exact fun v hv => .inl (le_trans hv hle)
    case isFalse hlt =>
      exact ⟨rfl, Nat.succ_le_of_lt (not_le.1 hlt), fun w hw => .inl (Nat.lt_succ_iff.1 hw)⟩
  | settleEntry version slot =>
    obtain ⟨hcall, hle, hcov⟩ := h
    refine ⟨hcall, hle, fun w hw => ?_⟩
    rcases Nat.lt_or_eq_of_le hw with hlt | rfl
    · exact covered_access weak (.settleEntry version slot) (by simp) (hcov w hlt)
    · exact .inr (Tracker.completed_settleSlot_self t w)
  | advanceLoad back => exact h
  | advanceRead back current =>
    simp only [access]
    split
    case isTrue hc => exact ⟨h, hS _ hc⟩
    case isFalse => exact Resume.Done.leave h
  | advanceCas back current =>
    have hcov : ∀ v, t.Covered v → (access weak t (.advanceCas back current)).1.Covered v :=
      fun v => covered_access weak _ (by simp)
    simp only [access] at hcov ⊢
    split
    case isTrue hcas =>
      rw [if_pos hcas] at hcov
      exact ⟨h.1.mono hcov, le_rfl⟩
    case isFalse => exact h.1
  | advanceRemove back next =>
    refine Resume.Done.mono (fun v => covered_access weak (.advanceRemove back next) ?_) h.1
    rintro _ _ ⟨⟩
    exact h.2
  | returned => exact h

/-- A version is completed by a call that settles it. -/
theorem completed_access (h : task.Progress t S) (hv : (access weak t task.pc).1.Completed v) :
    t.Completed v ∨ task.call.Settles v := by
  rcases states_access weak t task.pc v with hsame | ⟨a, hpc, -, hnew⟩ | ⟨version, hpc, -⟩ |
    ⟨back, -, hnone⟩
  · exact .inl ((Tracker.completed_congr hsame).1 hv)
  · rw [Task.Progress, hpc] at h
    obtain ⟨b, hb, hc⟩ := hv
    rw [h]
    exact .inr ⟨rfl, some.inj (hb.symm.trans hnew) ▸ hc⟩
  · rw [Task.Progress, hpc] at h
    rw [h.1]
    exact .inr h.2.1
  · simp [Tracker.Completed, hnone] at hv

/-- A version becomes pending by a mark only. -/
theorem pending_access (h : task.Progress t S)
    (hv : (access weak t task.pc).1.states v = some .pending) :
    t.states v = some .pending ∨ task.call = .mark v .pending := by
  rcases states_access weak t task.pc v with hsame | ⟨a, hpc, -, hnew⟩ | ⟨version, -, b, hb, hc⟩ |
    ⟨back, -, hnone⟩
  · exact .inl (hsame ▸ hv)
  · rw [Task.Progress, hpc] at h
    obtain rfl := some.inj (hnew.symm.trans hv)
    exact .inr h
  · obtain rfl := some.inj (hb.symm.trans hv)
    simp [State.completed] at hc
  · exact absurd (hnone.symm.trans hv) (by simp)

/-- **No lost wake-up.**  If the slot above the watermark is completed after an access,
then the call itself will look at it, or it was completed before, under the same
watermark, and this call was not the one to look. -/
theorem advancing_access
    (hv : (access weak t task.pc).1.Completed ((access weak t task.pc).1.watermark + 1)) :
    (access weak t task.pc).2.Advancing (access weak t task.pc).1.watermark ∨
      (t.Completed (t.watermark + 1) ∧ (access weak t task.pc).1.watermark = t.watermark ∧
        ¬task.pc.Advancing t.watermark) := by
  obtain ⟨call, pc⟩ := task
  cases pc with
  | markInsert | settleEntry | advanceRemove => exact .inl trivial
  | advanceLoad back => exact .inl rfl
  | markLoad | settleLoad =>
    simp only [access] at hv ⊢
    split at hv <;> rename_i hif <;> simp only [hif, if_true, if_false] at hv ⊢ <;>
      exact .inr ⟨hv, trivial, id⟩
  | advanceRead back current =>
    simp only [access] at hv ⊢
    split
    case isTrue => exact .inl trivial
    case isFalse hnc =>
      rw [if_neg hnc] at hv
      refine .inr ⟨hv, rfl, fun hcur => hnc ?_⟩
      rwa [(hcur : current = t.watermark)]
  | advanceCas back current =>
    simp only [access]
    split <;> exact .inl trivial
  | returned => exact .inr ⟨hv, rfl, id⟩

/-! ## The invariant -/

/-- The invariant of a tracker seeded with `start`, `settled` being the versions some
slot access has completed so far. -/
structure Inv (start : Nat) (settled : Nat → Prop) (s : System) : Prop where
  start_le : start ≤ s.tracker.watermark
  /-- The watermark only passed versions that were completed. -/
  passed : ∀ v, start < v → v ≤ s.tracker.watermark → settled v
  completed : ∀ v, s.tracker.Completed v → settled v
  /-- A completed slot was completed by a call that settles it. -/
  slots : ∀ v, s.tracker.Completed v → s.Settled v
  pending : ∀ v, s.tracker.states v = some .pending → ∃ i pc, s.tasks i = some ⟨.mark v .pending, pc⟩
  progress : ∀ i task, s.tasks i = some task → task.Progress s.tracker settled
  /-- A completed slot above the watermark has a call on its way to it. -/
  watched : s.tracker.Completed (s.tracker.watermark + 1) →
    ∃ i task, s.tasks i = some task ∧ task.pc.Advancing s.tracker.watermark

/-- A call keeps what it is when one of the calls moves on. -/
theorem tasks_update {j : Nat} {other : Task} (hj : s.tasks j = some other) (pc : Pc)
    (h : s.tasks i = some task) :
    ∃ pc', update s.tasks j (some ⟨other.call, pc⟩) i = some ⟨task.call, pc'⟩ := by
  by_cases hij : i = j
  · subst hij
    cases hj.symm.trans h
    exact ⟨pc, update_self ..⟩
  · exact ⟨task.pc, by simp [update_of_ne hij, h]⟩

/-- A call keeps its name and what it was called with. -/
theorem tasks_step (s : System) (e : Event) (h : s.tasks i = some task) :
    ∃ pc, (step s e).tasks i = some ⟨task.call, pc⟩ := by
  cases e with
  | invoke j call =>
    simp only [step]
    split
    case h_1 hj =>
      have hij : i ≠ j := by
        rintro rfl
        simp [hj] at h
      exact ⟨task.pc, by simp [update_of_ne hij, h]⟩
    case h_2 => exact ⟨task.pc, h⟩
  | exec j weak =>
    simp only [step]
    split
    case h_1 => exact ⟨task.pc, h⟩
    case h_2 other hj => exact tasks_update hj _ h

/-- A call after a step was there before, or the step has made it. -/
theorem tasks_of_step (h : (step s e).tasks i = some task) :
    (∃ pc, s.tasks i = some ⟨task.call, pc⟩) ∨ e = .invoke i task.call := by
  cases e with
  | invoke j call =>
    rw [step] at h
    split at h
    case h_1 hj =>
      by_cases hij : i = j
      · subst hij
        cases (update_self (f := s.tasks) i _).symm.trans h
        exact .inr rfl
      · exact .inl ⟨task.pc, (update_of_ne hij ..).symm.trans h⟩
    case h_2 => exact .inl ⟨task.pc, h⟩
  | exec j weak =>
    rw [step] at h
    split at h
    case h_1 => exact .inl ⟨task.pc, h⟩
    case h_2 other hj =>
      by_cases hij : i = j
      · subst hij
        cases (update_self (f := s.tasks) i _).symm.trans h
        exact .inl ⟨other.pc, hj⟩
      · exact .inl ⟨task.pc, (update_of_ne hij ..).symm.trans h⟩

/-- What is settled stays settled. -/
theorem settled_step (s : System) (e : Event) (h : s.Settled v) : (step s e).Settled v := by
  obtain ⟨i, task, hi, hv⟩ := h
  obtain ⟨pc, hpc⟩ := tasks_step s e hi
  exact ⟨i, _, hpc, hv⟩

/-- With distinct marks a terminal `mark` never finds its slot pending. -/
theorem Inv.not_pending (h : Inv start S s) (hd : s.DistinctMarks) (hi : s.tasks i = some task)
    {a : State} (hcall : task.call = .mark v a) (ha : a.completed) :
    s.tracker.states v ≠ some .pending := by
  intro hp
  obtain ⟨j, pc, hj⟩ := h.pending v hp
  obtain ⟨call, pc'⟩ := task
  subst hcall
  cases hd i j v v _ _ _ _ hi hj rfl
  cases hi.symm.trans hj
  simp [State.completed] at ha

/-- A call begins. -/
theorem Inv.invoke (h : Inv start S s) (hi : s.tasks i = none) (call : Call) :
    Inv start S { s with tasks := update s.tasks i (some ⟨call, call.entry⟩) } := by
  have hkeep : ∀ j task, s.tasks j = some task →
      update s.tasks i (some ⟨call, call.entry⟩) j = some task := by
    intro j task hj
    rw [update_of_ne (by rintro rfl; simp [hi] at hj), hj]
  refine ⟨h.start_le, h.passed, h.completed, ?_, ?_, ?_, ?_⟩
  · intro v hv
    obtain ⟨j, task, hj, hs⟩ := h.slots v hv
    exact ⟨j, task, hkeep j task hj, hs⟩
  · intro v hv
    obtain ⟨j, pc, hj⟩ := h.pending v hv
    exact ⟨j, pc, hkeep j _ hj⟩
  · intro j task hj
    by_cases hij : j = i
    · subst hij
      simp only [update_self, some.injEq] at hj
      subst hj
      cases call <;> rfl
    · exact h.progress j task (by simpa [update_of_ne hij] using hj)
  · intro hc
    obtain ⟨j, task, hj, ha⟩ := h.watched hc
    exact ⟨j, task, hkeep j task hj, ha⟩

/-- **Step lemma.**  One access of a call keeps the invariant, for any set `S'` that
keeps the completed versions and gains the newly completed ones. -/
theorem Inv.exec (h : Inv start S s) (hd : s.DistinctMarks) (hi : s.tasks i = some task)
    (weak : Bool) (hS : ∀ v, S v → S' v)
    (hS' : ∀ v, (access weak s.tracker task.pc).1.Completed v → S' v) :
    Inv start S' ⟨(access weak s.tracker task.pc).1,
      update s.tasks i (some ⟨task.call, (access weak s.tracker task.pc).2⟩)⟩ := by
  have hprog := h.progress i task hi
  have hw := watermark_le_access weak s.tracker task.pc
  have hcov : ∀ v, s.tracker.Covered v → (access weak s.tracker task.pc).1.Covered v := by
    refine fun v => covered_access weak task.pc fun back next hpc => ?_
    rw [Task.Progress, hpc] at hprog
    exact hprog.2
  refine ⟨h.start_le.trans hw, ?_, hS', ?_, ?_, ?_, ?_⟩
  · intro v hlo hhi
    by_cases hle : v ≤ s.tracker.watermark
    · exact hS v (h.passed v hlo hle)
    -- the watermark has moved, over a completed version
    rcases watermark_access weak s.tracker task.pc with hsame | ⟨back, hpc, hnext⟩
    · exact absurd (hsame ▸ hhi) hle
    · rw [Task.Progress, hpc] at hprog
      have hv : v = s.tracker.watermark + 1 := by
        simp only [hnext] at hhi
        omega
      exact hv ▸ hS _ hprog.2
  · intro v hv
    rcases completed_access hprog hv with hc | hs
    · obtain ⟨j, other, hj, hsj⟩ := h.slots v hc
      obtain ⟨pc, hpc⟩ := tasks_update hi (access weak s.tracker task.pc).2 hj
      exact ⟨j, _, hpc, hsj⟩
    · exact ⟨i, _, update_self .., hs⟩
  · intro v hv
    rcases pending_access hprog hv with hp | hcall
    · obtain ⟨j, pc, hj⟩ := h.pending v hp
      exact ⟨j, tasks_update hi _ hj⟩
    · exact ⟨i, (access weak s.tracker task.pc).2, by simp [hcall]⟩
  · intro j other hj
    by_cases hij : j = i
    · subst hij
      simp only [update_self, some.injEq] at hj
      subst hj
      exact (progress_access h.completed (fun v a hc => h.not_pending hd hi hc) hprog).mono
        le_rfl (fun _ => id) hS
    · exact (h.progress j other (by simpa [update_of_ne hij] using hj)).mono hw hcov hS
  · intro hc
    rcases advancing_access hc with ha | ⟨hc', hweq, hna⟩
    · exact ⟨i, _, update_self .., ha⟩
    obtain ⟨j, other, hj, ha⟩ := h.watched hc'
    have hij : j ≠ i := by
      rintro rfl
      cases hi.symm.trans hj
      exact hna ha
    exact ⟨j, other, by simp [update_of_ne hij, hj], hweq ▸ ha⟩

/-- What has completed has completed in the longer run. -/
theorem completedDuring_append (fs : List Event) (h : CompletedDuring start es v) :
    CompletedDuring start (es ++ fs) v := by
  obtain ⟨p, hp, hc⟩ := h
  exact ⟨p, hp.trans (prefix_append es fs), hc⟩

/-- Every step. -/
theorem Inv.step (h : Inv start (CompletedDuring start es) (after start es))
    (hd : (after start es).DistinctMarks) :
    Inv start (CompletedDuring start (es ++ [e])) (after start (es ++ [e])) := by
  have hmono : ∀ v, CompletedDuring start es v → CompletedDuring start (es ++ [e]) v :=
    fun v => completedDuring_append [e]
  have hnow : ∀ v, (after start (es ++ [e])).tracker.Completed v →
      CompletedDuring start (es ++ [e]) v := fun v hv => ⟨_, prefix_rfl, hv⟩
  have hsame : Inv start (CompletedDuring start (es ++ [e])) (after start es) := { h with
      passed := fun v hlo hhi => hmono v (h.passed v hlo hhi)
      completed := fun v hv => hmono v (h.completed v hv)
      progress := fun i task hi => (h.progress i task hi).mono le_rfl (fun _ => id) hmono }
  rw [after, run_concat] at hnow ⊢
  cases e with
  | invoke i call =>
    rw [CompletionTracker.step]
    split
    case h_1 hi => exact hsame.invoke hi call
    case h_2 => exact hsame
  | exec i weak =>
    rw [CompletionTracker.step] at hnow ⊢
    split
    case h_1 => exact hsame
    case h_2 task hi =>
      simp only [hi] at hnow
      exact h.exec hd hi weak hmono hnow

/-- The marks of two parts of a run. -/
theorem markedVersions_append (es fs : List Event) :
    markedVersions (es ++ fs) = markedVersions es ++ markedVersions fs :=
  filterMap_append ..

/-- Marks of a run without repetition are distinct. -/
theorem distinctMarks_after (start : Nat) (h : (markedVersions es).Nodup) :
    (∀ i v a pc, (after start es).tasks i = some ⟨.mark v a, pc⟩ → v ∈ markedVersions es) ∧
      (after start es).DistinctMarks := by
  induction es using reverseRecOn with
  | nil => constructor <;> simp [init, System.DistinctMarks]
  | append_singleton es e ih =>
    rw [markedVersions_append] at h ⊢
    obtain ⟨hmem, hd⟩ := ih (nodup_append.1 h).1
    rw [after, run_concat]
    -- a new call marks a version that no call before it has marked
    have hnew : ∀ i v a, e = .invoke i (.mark v a) → v ∈ markedVersions [e] := by
      rintro i v a rfl
      simp [markedVersions]
    have hfresh : ∀ v ∈ markedVersions es, v ∉ markedVersions [e] := fun v hv hv' =>
      (nodup_append.1 h).2.2 v hv v hv' rfl
    refine ⟨fun i v a pc hi => ?_, fun i j v w a b pi pj hi hj hvw => ?_⟩
    · rcases tasks_of_step hi with ⟨pc', hold⟩ | he
      · exact mem_append_left _ (hmem i v a pc' hold)
      · exact mem_append_right _ (hnew i v a he)
    subst hvw
    rcases tasks_of_step hi with ⟨pi', hi'⟩ | hi' <;>
      rcases tasks_of_step hj with ⟨pj', hj'⟩ | hj'
    · exact hd i j v v a b pi' pj' hi' hj' rfl
    · exact absurd (hnew j v b hj') (hfresh v (hmem i v a pi' hi'))
    · exact absurd (hnew i v a hi') (hfresh v (hmem j v b pj' hj'))
    · exact (Event.invoke.inj (hi'.symm.trans hj')).1

/-- The invariant holds along every run with distinct marks. -/
theorem inv_after (start : Nat) (es : List Event) (h : (markedVersions es).Nodup) :
    Inv start (CompletedDuring start es) (after start es) := by
  induction es using reverseRecOn with
  | nil =>
    refine ⟨le_rfl, fun v hlo hhi => absurd hhi (not_le.2 hlo), ?_, ?_, ?_, ?_, ?_⟩ <;>
      simp [init, withWatermark, Tracker.Completed]
  | append_singleton es e ih =>
    rw [markedVersions_append] at h
    have hes := (nodup_append.1 h).1
    exact (ih hes).step (distinctMarks_after start hes).2

/-! ## The watermark -/

/-- No step lowers the watermark. -/
theorem watermark_le_step (s : System) (e : Event) :
    s.tracker.watermark ≤ (step s e).tracker.watermark := by
  cases e with
  | invoke i call => simp only [step]; split <;> exact le_rfl
  | exec i weak =>
    simp only [step]
    split
    case h_1 => exact le_rfl
    case h_2 task _ => exact watermark_le_access weak s.tracker task.pc

/-- A version completed during the run is settled by one of its calls. -/
theorem settled_of_completedDuring (h : (markedVersions es).Nodup)
    (hv : CompletedDuring start es v) : (after start es).Settled v := by
  obtain ⟨fs, ⟨gs, rfl⟩, hc⟩ := hv
  rw [markedVersions_append] at h
  rw [after, run_append]
  -- calls are never forgotten
  exact run_invariant (fun s e => settled_step s e)
    ((inv_after start fs (nodup_append.1 h).1).slots v hc) gs

/-- **The completion watermark.**  In every run of concurrent `mark` and `settle_through`
calls in which no version is marked twice: the watermark never moves back; it only
passes versions whose slot held a terminal state and that some call settles; and once
every call has returned it is the largest `V` with all of `start + 1 .. V` settled. -/
theorem watermark_spec (start : Nat) (es : List Event) (h : (markedVersions es).Nodup) :
    (∀ fs, (after start es).tracker.watermark ≤ (after start (es ++ fs)).tracker.watermark) ∧
    (∀ v, start < v → v ≤ (after start es).tracker.watermark →
      CompletedDuring start es v ∧ (after start es).Settled v) ∧
    ((after start es).Quiescent →
      IsGreatest {V | ∀ v, start < v → v ≤ V → (after start es).Settled v}
        (after start es).tracker.watermark) := by
  have hinv := inv_after start es h
  have hpassed : ∀ v, start < v → v ≤ (after start es).tracker.watermark →
      CompletedDuring start es v ∧ (after start es).Settled v := fun v hlo hhi =>
    ⟨hinv.passed v hlo hhi, settled_of_completedDuring h (hinv.passed v hlo hhi)⟩
  refine ⟨fun fs => ?_, hpassed, fun hq => ⟨fun v hlo hhi => (hpassed v hlo hhi).2, ?_⟩⟩
  · rw [after, after, run_append]
    exact run_monotone (f := fun s : System => s.tracker.watermark) watermark_le_step _ fs
  intro V hV
  by_contra hlt
  -- the version above the watermark is settled by a call, and that call has returned
  obtain ⟨i, task, hi, hs⟩ := hV ((after start es).tracker.watermark + 1)
    (Nat.lt_succ_of_le hinv.start_le) (not_le.1 hlt)
  have hcov : (after start es).tracker.Covered ((after start es).tracker.watermark + 1) := by
    have hprog := hinv.progress i task hi
    rw [Task.Progress, hq i task hi] at hprog
    exact hprog _ hs
  rcases hcov with hle | hc
  · omega
  · obtain ⟨j, other, hj, ha⟩ := hinv.watched hc
    rw [hq j other hj] at ha
    exact ha

/-- Two marks out of order with a `settle_through` between them, on a tracker seeded
with `4`. -/
def sampleRun : List Event :=
  [.invoke 0 (.mark 6 .materialized), .invoke 1 (.mark 5 .aborted), .invoke 2 (.settleThrough 5),
    .exec 0 false, .exec 2 false, .exec 1 false, .exec 0 false, .exec 2 false, .exec 0 false,
    .exec 0 false, .exec 1 false, .exec 2 false, .exec 2 false, .exec 0 false, .exec 2 true] ++
  replicate 8 (.exec 2 false) ++ replicate 8 (.exec 0 false) ++
  replicate 8 (.exec 1 false)

/-- In the sample run versions 5 and 6 settle and the watermark is 6. -/
theorem watermark_sampleRun :
    (markedVersions sampleRun).Nodup ∧ (after 4 sampleRun).tracker.watermark = 6 ∧
      ∀ v, 4 < v → v ≤ 6 → (after 4 sampleRun).Settled v := by
  have hw : (after 4 sampleRun).tracker.watermark = 6 := by decide
  have hm : (markedVersions sampleRun).Nodup := by decide
  exact ⟨hm, hw, fun v hlo hhi => ((watermark_spec 4 sampleRun hm).2.1 v hlo (hw ▸ hhi)).2⟩

end ShamirDb.CompletionTracker
