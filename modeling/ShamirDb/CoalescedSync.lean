/-
# What `sync_now` promises

A call of `sync_now` that returns `Ok` is a barrier: the frames of every window that was
complete when the call was made are durable.  This holds in every run of a group with an
observer.  Without one it holds as long as no poisoned segment is rotated out while it has
unsynced frames of complete windows; the last section runs the schedule where it does.
-/
import ShamirDb.GroupProgress
import ShamirDb.WalEntryCodec

namespace ShamirDb

open Machine List

namespace WalGroup

variable {s : WalGroup} {d : SyncDemand}

/-- A demand that returned `Ok` has the frames of its windows from the floor on. -/
theorem Barrier.durable_of_demand (h : Barrier s) (hd : d ∈ s.sync.demands)
    (hok : d.result = some true) : ∀ f ∈ s.owed d.issued, s.sink.Durable f := by
  obtain ⟨-, htarget, hcovered⟩ := h.demands d hd
  obtain ⟨target, heq, hcov⟩ := hcovered hok
  simp only [SyncCoordinator.covers, Bool.and_eq_true, decide_eq_true_eq] at hcov
  intro f hf
  exact h.success.2 f (owed_mono ((htarget target heq).1.trans hcov.2) hf)

/-- A demand remembers how many windows were complete when it was issued. -/
theorem issued_of_demand (h : Secured s) {es : List Event}
    (hes : Along step KeepsInSight s (.demand :: es))
    (hd : (run step s (.demand :: es)).sync.demands[s.sync.demands.length]? = some d) :
    d.issued = s.settled.length := by
  obtain ⟨more, hmore⟩ := (progress_along (h.step .demand) hes.2).issued
  have hget : ((s.step .demand).sync.demands.map SyncDemand.issued)[s.sync.demands.length]? =
      some s.settled.length := by
    simp [WalGroup.step, WalGroup.demand, h.barrier.generation]
  have hlast : ((s.step .demand).sync.demands.map SyncDemand.issued ++ more)[
      s.sync.demands.length]? = some s.settled.length := by
    rw [List.getElem?_append_left (List.getElem?_eq_some_iff.1 hget).1, hget]
  rw [run_cons] at hd
  rw [hmore, getElem?_map, hd] at hlast
  exact Option.some.inj hlast

/-- **The coalesced sync is a barrier.**  In every run in which no poisoned segment goes
out of sight: when a `sync_now` call returns `Ok`, every frame of every window that was
complete when the call was made is durable. -/
theorem sync_now_barrier (mem observer : Bool) (es es' : List Event)
    (hsight : Along step KeepsInSight (start mem observer) (es ++ .demand :: es'))
    (d : SyncDemand)
    (hd : (run step (start mem observer) (es ++ .demand :: es')).sync.demands[
      (run step (start mem observer) es).sync.demands.length]? = some d)
    (hok : d.result = some true) :
    ∀ f ∈ windowFrames (run step (start mem observer) es).settled.flatten,
      (run step (start mem observer) (es ++ .demand :: es')).sink.Durable f := by
  have hbefore := secured_run mem observer es
  have hafter := (secured_run mem observer (es ++ .demand :: es')).barrier
  obtain ⟨hsight₁, hsight₂⟩ := (along_append _ _ _ _ _).1 hsight
  rw [run_append] at hd hafter ⊢
  have hissued := issued_of_demand hbefore hsight₂ hd
  have hlater := progress_along hbefore hsight₂
  -- nothing went out of sight, so the floor is still zero
  have hfloor := (hlater.floor rfl).trans ((progress_along (secured_run mem observer []) hsight₁).floor rfl)
  have howed := hafter.durable_of_demand (mem_of_getElem? hd) hok
  obtain ⟨more, hmore⟩ := hlater.settled
  rw [owed, ← hmore, hissued, hfloor, take_left' rfl] at howed
  exact howed

/-! ## A run with a poisoned segment -/

/-- A window is written; the write of the next one fails with a clean rollback, the
poisoned segment is rotated out, and the retry succeeds on the new one. -/
def poisonedWindow : List Event :=
  leads 0 (WalEntryV2.sample 1) 1 ++ [.append .ok false true, .append .ok false true, .lead] ++
    leads 1 (WalEntryV2.sample 2) 2 ++ [.append .ok false true, .append (.fails 0) false true,
      .append .ok false true, .append .ok false true, .append .ok false true, .lead]

/-- A worker round with at most two fsyncs, all of them successful, and a look at its
result. -/
def syncRound : List Event :=
  [.demandStep 0, .roundStart, .roundCapture, .roundFsync, .roundSync true, .roundFsync,
    .roundSync true, .demandStep 0]

/-- With an observer the round syncs the rotated segment as well. -/
theorem sync_now_barrier_observed :
    (∀ f ∈ windowFrames (run step (start false true) poisonedWindow).settled.flatten,
      (run step (start false true) (poisonedWindow ++ .demand :: syncRound)).sink.Durable f) ∧
      (run step (start false true) poisonedWindow).settled.length = 2 :=
  ⟨sync_now_barrier false true poisonedWindow syncRound (by decide +kernel)
    ⟨2, 0, some 2, some true⟩ (by decide +kernel) rfl, by decide +kernel⟩

/-- Without one the call returns `Ok`, and the frame of the first window is not durable:
the segment that holds it had no fsync since the write, and will not get one. -/
theorem sync_now_loses_rotated :
    (run step (start false false) (poisonedWindow ++ .demand :: syncRound)).sync.demands =
        [⟨2, 0, some 2, some true⟩] ∧
      ⟨0, 0, WalEntryV2.sample 1, 1⟩ ∈
        windowFrames (run step (start false false) poisonedWindow).settled.flatten ∧
      ¬ (run step (start false false) (poisonedWindow ++ .demand :: syncRound)).sink.Durable
        ⟨0, 0, WalEntryV2.sample 1, 1⟩ := by
  refine ⟨by decide +kernel, by decide +kernel, ?_⟩
  have hwf := (secured_run false false (poisonedWindow ++ .demand :: syncRound)).barrier.wf
  rw [FrameSink.durable_iff hwf]
  decide +kernel

end WalGroup

end ShamirDb
