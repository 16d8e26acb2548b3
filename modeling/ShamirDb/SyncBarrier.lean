/-
# The coalesced sync is a barrier

`sync_now` reads the generation of complete windows and waits until some worker round
that promised at least that generation has succeeded.  The invariant follows every frame
of a complete window: it is durable, or in the active segment, or, with an observer, in a
sealed segment that is still known to be unsynced; and once a round has captured its
files, every frame it has promised is durable or in one of them.

Without an observer a round syncs the active segment only.  A segment that
`rotate_after_poison` moves out with unsynced frames of complete windows is then never
synced again, so the barrier holds from `floor` on: the windows complete at the last such
rotation are lost to it.
-/
import ShamirDb.GroupShape

namespace ShamirDb

open Machine List FrameSink Function

namespace WalGroup

/-! ## The invariant -/

/-- The frames a promise of the first `n` windows is about. -/
def owed (s : WalGroup) (n : Nat) : List WalFrame :=
  windowFrames ((s.settled.take n).drop s.floor).flatten

/-- Where a frame of a complete window can be. -/
def Anchored (s : WalGroup) (f : WalFrame) : Prop :=
  s.sink.Durable f ∨ f ∈ s.sink.active.frames ∨ s.observer = true ∧
      ∃ i < s.sink.activeSeq, s.sink.synced i = false ∧ f ∈ (s.sink.segments i).frames

/-- A round that is going on: what it promises is durable or still in its files. -/
structure RoundOk (s : WalGroup) (round : SyncRound) : Prop where
  target_le : round.target ≤ s.settled.length
  files_le : ∀ files, round.files = some files →
    (∀ i ∈ files, i ≤ s.sink.activeSeq) ∧ ∀ i ∈ files.dropLast, i < s.sink.activeSeq
  waiting : ∀ files, round.files = some files → round.started = none →
    ∀ f ∈ s.owed round.target, s.sink.Durable f ∨ ∃ i ∈ files, f ∈ (s.sink.segments i).frames
  running : ∀ seq files n, round.files = some (seq :: files) → round.started = some n →
    n ≤ (s.sink.segments seq).frames.length ∧
      (files ≠ [] → n = (s.sink.segments seq).frames.length) ∧
      ∀ f ∈ s.owed round.target, s.sink.Durable f ∨
        f ∈ (s.sink.segments seq).frames.take n ∨ ∃ i ∈ files, f ∈ (s.sink.segments i).frames

/-- A call of `sync_now`: what it waits for, and what its success rests on. -/
structure DemandOk (s : WalGroup) (d : SyncDemand) : Prop where
  issued_le : d.issued ≤ s.settled.length
  target_le : ∀ target, d.target = some target → d.issued ≤ target ∧ target ≤ s.settled.length
  covered : d.result = some true →
    ∃ target, d.target = some target ∧ s.sync.covers target = true

structure Barrier (s : WalGroup) : Prop where
  wf : s.sink.WF
  generation : s.sync.writtenGeneration = s.settled.length
  floor_le : s.floor ≤ s.settled.length
  memory : s.mem = true → s.sink.activeSeq = 0
  sealed : ∀ i < s.sink.activeSeq, s.sink.synced i = true →
    (s.sink.segments i).durable = (s.sink.segments i).frames.length
  anchored : ∀ f ∈ s.owed s.settled.length, s.Anchored f
  round : ∀ round, s.sync.round = some round → s.RoundOk round
  success : s.sync.successful ≤ s.settled.length ∧
    ∀ f ∈ s.owed s.sync.successful, s.sink.Durable f
  demands : ∀ d ∈ s.sync.demands, s.DemandOk d

/-- What the stage of the leader adds: after the write its frames are in the active
segment, after the seal's fsync they are durable, and a window that waits for its sync is
the last one and not below the floor. -/
def StageStored (s : WalGroup) : Prop :=
  match s.stage? with
  | some .sealing => ∀ f ∈ windowFrames s.hand, f ∈ s.sink.active.frames
  | some .swapping => (∀ f ∈ windowFrames s.hand, f ∈ s.sink.active.frames) ∧
      s.sink.active.durable = s.sink.active.frames.length
  | some (.demanding window) => s.settled.getLast? = some window ∧ s.floor < s.settled.length
  | some (.syncing window _ target) => s.settled.getLast? = some window ∧
      s.floor < s.settled.length ∧ target = s.settled.length
  | _ => True

variable {s s' : WalGroup}

variable {f : WalFrame} {sink : FrameSink WalFrame} {guard : LeaderGuard} {r : WalRequest} {n : Nat}

/-- The frames of a window are those of its requests. -/
theorem mem_windowFrames {window : List WalRequest} :
    f ∈ windowFrames window ↔ ∃ r ∈ window, f ∈ r.frames :=
  mem_flatMap

/-- A frame carries the ticket of its request. -/
theorem ticket_of_mem_frames (hf : f ∈ r.frames) : f.ticket = r.ticket := by
  obtain ⟨i, hi, rfl⟩ := mem_mapIdx.1 hf
  rfl

/-- The owed frames are those of the windows above the floor. -/
theorem mem_owed : f ∈ s.owed n ↔ ∃ w ∈ (s.settled.take n).drop s.floor, f ∈ windowFrames w := by
  simp only [owed, mem_windowFrames, mem_flatten]
  constructor
  · rintro ⟨r, ⟨w, hw, hr⟩, hf⟩
    exact ⟨w, hw, r, hr, hf⟩
  · rintro ⟨w, hw, r, hr, hf⟩
    exact ⟨r, ⟨w, hw, hr⟩, hf⟩

/-- More windows owe more. -/
theorem owed_mono {m : Nat} (hnm : n ≤ m) (hf : f ∈ s.owed n) : f ∈ s.owed m := by
  obtain ⟨w, hw, hf⟩ := mem_owed.1 hf
  exact mem_owed.2 ⟨w, ((take_sublist_take_left hnm).drop _).subset hw, hf⟩

/-- Owed frames are settled. -/
theorem settled_of_owed (hf : f ∈ s.owed n) : ∃ r ∈ s.settled.flatten, f ∈ r.frames := by
  obtain ⟨w, hw, hf⟩ := mem_owed.1 hf
  obtain ⟨r, hr, hf⟩ := mem_windowFrames.1 hf
  exact ⟨r, mem_flatten.2 ⟨w, mem_of_mem_take (mem_of_mem_drop hw), hr⟩, hf⟩

/-! ## Steps of the sink -/

/-- A round keeps its files in sight while the sink moves on. -/
theorem RoundOk.leads {round : SyncRound} (h : s.RoundOk round) (hsettled : s'.settled = s.settled)
    (howed : ∀ f ∈ s'.owed round.target, f ∈ s.owed round.target)
    (hsink : s.sink.Leads s'.sink) : s'.RoundOk round := by
  refine ⟨hsettled ▸ h.target_le, ?_, ?_, ?_⟩
  · intro files hfiles
    obtain ⟨hle, hlt⟩ := h.files_le files hfiles
    exact ⟨fun i hi => (hle i hi).trans hsink.active_le,
      fun i hi => (hlt i hi).trans_le hsink.active_le⟩
  · intro files hfiles hstarted f hf
    rcases h.waiting files hfiles hstarted f (howed f hf) with hdur | ⟨i, hi, hmem⟩
    · exact .inl (hsink.grows.durable hdur)
    · exact .inr ⟨i, hi, hsink.grows.mem hmem⟩
  intro seq files n hfiles hstarted
  obtain ⟨hn, hfull, hall⟩ := h.running seq files n hfiles hstarted
  have hpre := (hsink.grows seq).1
  refine ⟨hn.trans hpre.length_le, ?_, ?_⟩
  · intro hne
    -- only the last file can still be active, and the others get no more frames
    have hlt := (h.files_le _ hfiles).2 seq (by
      rw [dropLast_cons_of_ne_nil hne]
      exact mem_cons_self)
    rw [hsink.sealed seq hlt]
    exact hfull hne
  · intro f hf
    rcases hall f (howed f hf) with hdur | hcur | ⟨i, hi, hmem⟩
    · exact .inl (hsink.grows.durable hdur)
    · obtain ⟨more, hmore⟩ := hpre
      rw [← hmore, take_append_of_le_length hn]
      exact .inr (.inl hcur)
    · exact .inr (.inr ⟨i, hi, hsink.grows.mem hmem⟩)

section

variable (h : Barrier s) {seq : Nat}
include h

/-- The sink moves on. -/
theorem Barrier.leads (floor : Nat) (hsink : s.sink.Leads sink)
    (hfloor : floor = s.floor ∨ floor = s.settled.length)
    (hmemory : s.mem = true → sink.activeSeq = 0)
    (hsealed : ∀ i < sink.activeSeq, sink.synced i = true →
      (sink.segments i).durable = (sink.segments i).frames.length)
    (hanchored : floor = s.floor → ∀ f ∈ s.owed s.settled.length,
      ({ s with sink, floor } : WalGroup).Anchored f) : Barrier { s with sink, floor } := by
  -- raising the floor to the current generation leaves nothing owed
  have howed : ∀ n f, f ∈ ({ s with sink, floor } : WalGroup).owed n →
      floor = s.floor ∧ f ∈ s.owed n := by
    intro n f hf
    rcases hfloor with rfl | rfl
    · exact ⟨rfl, hf⟩
    · obtain ⟨w, hw, hf⟩ := mem_owed.1 hf
      have hnil : (s.settled.take n).drop s.settled.length = [] :=
        drop_eq_nil_of_le (length_take_le' n _)
      simp only [hnil] at hw
      cases hw
  refine ⟨hsink.wf, h.generation, ?_, hmemory, hsealed, ?_, ?_, ?_, ?_⟩
  · rcases hfloor with rfl | rfl
    · exact h.floor_le
    · exact le_rfl
  · intro f hf
    obtain ⟨hsame, hf⟩ := howed _ f hf
    exact hanchored hsame f hf
  · intro round hround
    exact (h.round round hround).leads rfl (fun f hf => (howed _ f hf).2) hsink
  · obtain ⟨hle, hall⟩ := h.success
    exact ⟨hle, fun f hf => hsink.grows.durable (hall f (howed _ f hf).2)⟩
  · intro d hd
    exact ⟨(h.demands d hd).issued_le, (h.demands d hd).target_le, (h.demands d hd).covered⟩

/-- A write, an fsync or a poisoning leaves the numbering of the segments alone. -/
theorem Barrier.write (hsink : s.sink.Leads sink) (hactive : sink.activeSeq = s.sink.activeSeq)
    (hsynced : sink.synced = s.sink.synced) : Barrier { s with sink } := by
  refine h.leads s.floor hsink (.inl rfl) ?_ ?_ ?_
  · rw [hactive]
    exact h.memory
  · intro i hi hsync
    rw [hactive] at hi
    rw [hsynced] at hsync
    have hfull := h.sealed i hi hsync
    have hdur := (hsink.grows i).2
    have hle := hsink.wf.durable_le i
    have hframes := hsink.sealed i hi
    rw [hframes] at hle ⊢
    omega
  · intro _ f hf
    rcases h.anchored f hf with hdur | hmem | ⟨hobs, i, hi, hsync, hmem⟩
    · exact .inl (hsink.grows.durable hdur)
    · refine .inr (.inl ?_)
      show f ∈ (sink.segments sink.activeSeq).frames
      rw [hactive]
      exact hsink.grows.mem hmem
    · exact .inr (.inr ⟨hobs, i, hactive.symm ▸ hi, hsynced.symm ▸ hsync, hsink.grows.mem hmem⟩)

/-- An append that may fail. -/
theorem Barrier.attempt (write : FrameWrite) (batch : List WalFrame) :
    Barrier { s with sink := (s.sink.attempt write batch).2 } :=
  h.write (h.wf.leads_attempt write batch) (attempt_activeSeq _ _ _) (attempt_synced _ _ _)

/-- A batch is appended. -/
theorem Barrier.append (batch : List WalFrame) : Barrier { s with sink := s.sink.append batch } :=
  h.write (h.wf.leads_append batch) rfl rfl

/-- A segment is synced. -/
theorem Barrier.fsync {n : Nat} (hseq : seq ≤ s.sink.activeSeq)
    (hn : n ≤ (s.sink.segments seq).frames.length) :
    Barrier { s with sink := s.sink.fsync seq n } :=
  h.write (h.wf.leads_fsync hseq hn) rfl rfl

/-- A segment is poisoned. -/
theorem Barrier.poison (hseq : seq ≤ s.sink.activeSeq) :
    Barrier { s with sink := s.sink.poison seq } :=
  h.write (h.wf.leads_poison hseq) rfl rfl

/-- The record of a sealed segment is marked after its fsync. -/
theorem Barrier.markSynced (hseq : seq < s.sink.activeSeq) :
    Barrier { s with sink :=
      (s.sink.fsync seq (s.sink.segments seq).frames.length).markSynced seq } := by
  have hfsync := h.fsync hseq.le le_rfl
  have hfull : ((s.sink.fsync seq (s.sink.segments seq).frames.length).segments seq).durable =
      ((s.sink.fsync seq (s.sink.segments seq).frames.length).segments seq).frames.length := by
    simp [FrameSink.fsync, FrameSink.setSegment, h.wf.durable_le seq]
  refine hfsync.leads s.floor ((FrameSink.Leads.refl hfsync.wf).markSynced seq) (.inl rfl)
    hfsync.memory ?_ ?_
  · intro i hi hsync
    by_cases heq : i = seq
    · subst heq
      exact hfull
    · simp only [FrameSink.markSynced, update_of_ne heq] at hsync
      exact hfsync.sealed i hi hsync
  · intro _ f hf
    rcases hfsync.anchored f hf with hdur | hmem | ⟨hobs, i, hi, hsync, hmem⟩
    · exact .inl hdur
    · exact .inr (.inl hmem)
    · by_cases heq : i = seq
      · subst heq
        exact .inl (durable_of_full hfull hmem)
      · refine .inr (.inr ⟨hobs, i, hi, ?_, hmem⟩)
        simpa only [FrameSink.markSynced, update_of_ne heq] using hsync

/-- The swap after a seal: the sealed segment is durable to its end. -/
theorem Barrier.swap (hmem : s.mem = false)
    (hfull : s.sink.active.durable = s.sink.active.frames.length) :
    Barrier { s with sink := s.sink.rotate true } := by
  refine h.leads s.floor (h.wf.leads_rotate true) (.inl rfl) (by simp [hmem]) ?_ ?_
  · intro i hi hsync
    rcases Nat.lt_succ_iff_lt_or_eq.1 hi with hi | rfl
    · simp only [FrameSink.rotate, update_of_ne hi.ne] at hsync
      exact h.sealed i hi hsync
    · exact hfull
  · intro _ f hf
    rcases h.anchored f hf with hdur | hact | ⟨hobs, i, hi, hsync, hmem⟩
    · exact .inl hdur
    · exact .inl (durable_of_full hfull hact)
    · refine .inr (.inr ⟨hobs, i, Nat.lt_succ_of_lt hi, ?_, hmem⟩)
      simpa only [FrameSink.rotate, update_of_ne hi.ne] using hsync

end

/-- A settled frame of a synced active segment is durable. -/
theorem durable_of_activeSynced (hsynced : s.activeUnsynced = false) (hr : r ∈ s.settled.flatten)
    (hf : f ∈ r.frames) (hmem : f ∈ s.sink.active.frames) : s.sink.Durable f := by
  refine ⟨s.sink.activeSeq, ?_⟩
  rw [← take_append_drop s.sink.active.durable s.sink.active.frames] at hmem
  rcases mem_append.1 hmem with htake | hdrop
  · exact htake
  · have hany : s.activeUnsynced = true := by
      simp only [activeUnsynced, any_eq_true]
      exact ⟨f, hdrop, r, hr, by simp [ticket_of_mem_frames hf]⟩
    rw [hany] at hsynced
    cases hsynced

/-- The rotation of a poisoned segment: with an observer the record says that it is
unsynced, without one the floor moves unless all of it is durable. -/
theorem Barrier.rotatePoisoned (h : Barrier s) (hmem : s.mem = false) :
    Barrier s.rotatePoisoned := by
  refine h.leads _ (h.wf.leads_rotate false) ?_ (by simp [hmem]) ?_ ?_
  · rw [h.generation]
    split
    · exact .inr rfl
    · exact .inl rfl
  · intro i hi hsync
    rcases Nat.lt_succ_iff_lt_or_eq.1 hi with hi | rfl
    · simp only [FrameSink.rotate, update_of_ne hi.ne] at hsync
      exact h.sealed i hi hsync
    · simp [FrameSink.rotate] at hsync
  · intro hfloor f hf
    rcases h.anchored f hf with hdur | hact | ⟨hobs, i, hi, hsync, hmem⟩
    · exact .inl hdur
    · by_cases hobs : s.observer = true
      · exact .inr (.inr ⟨hobs, s.sink.activeSeq, Nat.lt_succ_self _, by simp [FrameSink.rotate], hact⟩)
      by_cases hunsynced : s.activeUnsynced = true
      · -- the floor would have to stay where it is while it moves to the generation
        simp only [hobs, hunsynced, h.generation, Bool.not_false, Bool.and_self, if_true] at hfloor
        obtain ⟨w, hw, -⟩ := mem_owed.1 hf
        rw [← hfloor, take_length, drop_length] at hw
        cases hw
      · obtain ⟨r, hr, hfr⟩ := settled_of_owed hf
        have hdur : s.sink.Durable f :=
          durable_of_activeSynced (Bool.not_eq_true _ ▸ hunsynced) hr hfr hact
        exact .inl hdur
    · refine .inr (.inr ⟨hobs, i, Nat.lt_succ_of_lt hi, ?_, hmem⟩)
      simpa only [FrameSink.rotate, update_of_ne hi.ne] using hsync

/-! ## Steps of the leader -/

/-- It depends on these parts only. -/
theorem Barrier.congr (h : Barrier s)
    (hsame : (s'.sink, s'.sync, s'.settled, s'.floor, s'.mem, s'.observer) =
      (s.sink, s.sync, s.settled, s.floor, s.mem, s.observer)) : Barrier s' := by
  simp only [Prod.mk.injEq] at hsame
  obtain ⟨hsink, hsync, hsettled, hfloor, hmem, hobs⟩ := hsame
  have howed : ∀ n, s'.owed n = s.owed n := fun n => by rw [owed, owed, hsettled, hfloor]
  constructor
  case wf => exact hsink ▸ h.wf
  case generation => rw [hsync, hsettled, h.generation]
  case floor_le => rw [hfloor, hsettled]; exact h.floor_le
  case memory => rw [hmem, hsink]; exact h.memory
  case sealed => rw [hsink]; exact h.sealed
  case anchored =>
    rw [howed, hsettled]
    simp only [Anchored, hsink, hobs]
    exact h.anchored
  case round =>
    rw [hsync]
    intro round hround
    refine (h.round round hround).leads hsettled (fun f hf => howed _ ▸ hf) ?_
    rw [hsink]
    exact FrameSink.Leads.refl h.wf
  case success =>
    rw [hsync, howed, hsettled, hsink]
    exact h.success
  case demands =>
    rw [hsync]
    intro d hd
    have hok := h.demands d hd
    exact ⟨hsettled ▸ hok.issued_le, hsettled ▸ hok.target_le, hsync ▸ hok.covered⟩

/-- A window is settled whose frames are durable or in the active segment. -/
theorem Barrier.publish (h : Barrier s) (guard : LeaderGuard)
    (hhand : ∀ f ∈ windowFrames s.hand, s.sink.Durable f ∨ f ∈ s.sink.active.frames) :
    Barrier (s.publish guard) := by
  have hsettled : (s.publish guard).settled = s.settled ++ [s.hand] := rfl
  have hlen : (s.publish guard).settled.length = s.settled.length + 1 := by simp [hsettled]
  have hold : ∀ n ≤ s.settled.length, (s.publish guard).owed n = s.owed n := by
    intro n hn
    rw [owed, hsettled, take_append_of_le_length hn]
    rfl
  refine ⟨h.wf, ?_, ?_, h.memory, h.sealed, ?_, ?_, ?_, ?_⟩
  · rw [hlen, ← h.generation]
    rfl
  · rw [hlen]
    exact h.floor_le.trans (Nat.le_succ _)
  · intro f hf
    rw [owed, take_length, hsettled] at hf
    rw [show (s.publish guard).floor = s.floor from rfl, drop_append_of_le_length h.floor_le,
      windowFrames, flatten_append, flatMap_append] at hf
    rcases mem_append.1 hf with hf | hf
    · refine h.anchored f ?_
      rw [owed, take_length]
      exact hf
    · rcases hhand f (by simpa [windowFrames] using hf) with hdur | hact
      · exact .inl hdur
      · exact .inr (.inl hact)
  · intro round hround
    have hok := h.round round hround
    refine ⟨?_, hok.files_le, ?_, ?_⟩
    · rw [hlen]
      exact hok.target_le.trans (Nat.le_succ _)
    · rw [hold _ hok.target_le]
      exact hok.waiting
    · rw [hold _ hok.target_le]
      exact hok.running
  · obtain ⟨hle, hall⟩ := h.success
    refine ⟨?_, ?_⟩
    · rw [hlen]
      exact hle.trans (Nat.le_succ _)
    · intro f hf
      have hsame : (s.publish guard).owed s.sync.successful = s.owed s.sync.successful := hold _ hle
      exact hall f (hsame ▸ hf)
  · intro d hd
    have hok := h.demands d hd
    refine ⟨?_, ?_, hok.covered⟩
    · rw [hlen]
      exact hok.issued_le.trans (Nat.le_succ _)
    · intro target htarget
      rw [hlen]
      exact ⟨(hok.target_le target htarget).1, (hok.target_le target htarget).2.trans (Nat.le_succ _)⟩

/-! ## Steps of the worker and the demands -/

/-- The coordinator moves on. -/
theorem Barrier.coordinator (h : Barrier s) (sync : SyncCoordinator)
    (hgen : sync.writtenGeneration = s.sync.writtenGeneration)
    (hround : ∀ round, sync.round = some round → s.RoundOk round)
    (hsuccess : sync.successful ≤ s.settled.length ∧ ∀ f ∈ s.owed sync.successful, s.sink.Durable f)
    (hdemands : ∀ d ∈ sync.demands, ({ s with sync } : WalGroup).DemandOk d) :
    Barrier { s with sync } :=
  ⟨h.wf, hgen.trans h.generation, h.floor_le, h.memory, h.sealed, h.anchored,
    fun round hr => (hround round hr).leads rfl (fun _ => id) (FrameSink.Leads.refl h.wf),
    hsuccess, hdemands⟩

/-- A demand stays in order while success is not taken back. -/
theorem DemandOk.mono {d : SyncDemand} (h : s.DemandOk d) (hsettled : s'.settled = s.settled)
    (hcovers : ∀ target, s.sync.covers target = true → s'.sync.covers target = true) :
    s'.DemandOk d := by
  refine ⟨hsettled ▸ h.issued_le, hsettled ▸ h.target_le, ?_⟩
  intro hresult
  obtain ⟨target, htarget, hcov⟩ := h.covered hresult
  exact ⟨target, htarget, hcovers target hcov⟩

/-- The round moves on, and success is not taken back. -/
theorem Barrier.moveRound (h : Barrier s) (round : Option SyncRound) (failureEpoch : Nat)
    (hround : ∀ r, round = some r → s.RoundOk r) :
    Barrier { s with sync := { s.sync with round, failureEpoch } } :=
  h.coordinator _ rfl hround h.success fun d hd => (h.demands d hd).mono rfl fun _ => id

/-- A round starts. -/
theorem Barrier.roundStart (h : Barrier s) : Barrier s.roundStart := by
  unfold WalGroup.roundStart
  split
  · exact h
  · refine h.moveRound _ _ ?_
    rintro _ ⟨rfl⟩
    exact ⟨h.generation.le, nofun, nofun, nofun⟩

/-- A round fails. -/
theorem Barrier.roundFail (h : Barrier s) : Barrier s.roundFail := by
  unfold WalGroup.roundFail
  split
  · exact h
  · exact h.moveRound _ _ nofun

/-- A settled frame is durable or in a file of the round. -/
theorem mem_roundFiles (hf : s.Anchored f) :
    s.sink.Durable f ∨ ∃ i ∈ s.roundFiles, f ∈ (s.sink.segments i).frames := by
  rcases hf with hdur | hact | ⟨hobs, i, hi, hsync, hmem⟩
  · exact .inl hdur
  · exact .inr ⟨s.sink.activeSeq, by simp [roundFiles], hact⟩
  · exact .inr ⟨i, by simp [roundFiles, hobs, hi, hsync], hmem⟩

section

variable (h : Barrier s) {target seq n : Nat}
include h

/-- A round captures its files. -/
theorem Barrier.roundCapture : Barrier s.roundCapture := by
  unfold WalGroup.roundCapture
  split
  case h_2 => exact h
  case h_1 target started hround =>
    refine h.moveRound _ _ ?_
    rintro _ ⟨rfl⟩
    have hok := h.round _ hround
    refine ⟨hok.target_le, ?_, ?_, nofun⟩
    · rintro files hfiles
      cases hfiles
      refine ⟨?_, ?_⟩
      · intro i hi
        simp only [roundFiles, mem_append, mem_singleton] at hi
        rcases hi with hi | rfl
        · split at hi
          · exact (mem_range.1 (mem_of_mem_filter hi)).le
          · cases hi
        · exact le_rfl
      · intro i hi
        rw [roundFiles, dropLast_concat] at hi
        split at hi
        · exact mem_range.1 (mem_of_mem_filter hi)
        · cases hi
    · rintro files hfiles - f hf
      cases hfiles
      exact mem_roundFiles (h.anchored f (owed_mono hok.target_le hf))

/-- A round has synced its files. -/
theorem Barrier.roundFsync : Barrier s.roundFsync := by
  unfold WalGroup.roundFsync
  split
  case h_2 => exact h
  case h_1 target seq files hround =>
    refine h.moveRound _ _ ?_
    rintro _ ⟨rfl⟩
    have hok := h.round _ hround
    refine ⟨hok.target_le, hok.files_le, nofun, ?_⟩
    rintro seq' files' n hfiles hn
    cases hfiles
    cases hn
    refine ⟨le_rfl, fun _ => rfl, ?_⟩
    intro f hf
    rcases hok.waiting _ rfl rfl f hf with hdur | ⟨i, hi, hmem⟩
    · exact .inl hdur
    · rcases mem_cons.1 hi with rfl | hi
      · exact .inr (.inl (by rwa [take_length]))
      · exact .inr (.inr ⟨i, hi, hmem⟩)

/-- The last fsync of a round succeeds: everything it promised is durable. -/
theorem Barrier.roundDone (hround : s.sync.round = some ⟨target, some [seq], some n⟩) :
    Barrier { s with
      sink := s.sink.fsync seq n
      sync := { s.sync with
        round := none
        successful := max s.sync.successful target
        hasSuccess := true } } := by
  have hok := h.round _ hround
  obtain ⟨hn, -, hall⟩ := hok.running seq [] n rfl rfl
  have hseq := (hok.files_le _ rfl).1 seq mem_cons_self
  have hsink := h.fsync hseq hn
  refine hsink.coordinator _ rfl nofun ⟨max_le h.success.1 hok.target_le, ?_⟩ ?_
  · intro f hf
    rcases le_total s.sync.successful target with hle | hle
    · rw [show max s.sync.successful target = target from max_eq_right hle] at hf
      rcases hall f hf with hdur | hcur | ⟨i, hi, -⟩
      · exact (h.wf.leads_fsync hseq hn).grows.durable hdur
      · exact durable_fsync hcur
      · cases hi
    · rw [show max s.sync.successful target = s.sync.successful from max_eq_left hle] at hf
      exact hsink.success.2 f hf
  · intro d hd
    refine (h.demands d hd).mono rfl ?_
    intro t ht
    simp only [SyncCoordinator.covers, Bool.and_eq_true, decide_eq_true_eq, true_and] at ht ⊢
    omega

/-- The fsync of a sealed segment succeeds, and the round goes on. -/
theorem Barrier.roundNext {files : List Nat} (hfiles : files ≠ [])
    (hround : s.sync.round = some ⟨target, some (seq :: files), some n⟩) :
    Barrier { s with
      sink := (s.sink.fsync seq n).markSynced seq
      sync := { s.sync with round := some ⟨target, some files, none⟩ } } := by
  have hok := h.round _ hround
  obtain ⟨hn, hfull, hall⟩ := hok.running seq files n rfl rfl
  obtain ⟨hle, hlt⟩ := hok.files_le _ rfl
  rw [dropLast_cons_of_ne_nil hfiles] at hlt
  have hseq := hlt seq mem_cons_self
  have hsink := h.markSynced hseq
  rw [← hfull hfiles] at hsink
  refine hsink.moveRound _ _ ?_
  rintro _ ⟨rfl⟩
  refine ⟨hok.target_le, ?_, ?_, nofun⟩
  · rintro _ ⟨rfl⟩
    exact ⟨fun i hi => hle i (mem_cons_of_mem _ hi), fun i hi => hlt i (mem_cons_of_mem _ hi)⟩
  rintro _ ⟨rfl⟩ - f hf
  have hgrows := (h.wf.leads_fsync hseq.le hn).grows
  rcases hall f hf with hdur | hcur | ⟨i, hi, hmem⟩
  · exact .inl (hgrows.durable hdur)
  · exact .inl (durable_fsync hcur)
  · exact .inr ⟨i, hi, hgrows.mem hmem⟩

/-- A round ends. -/
theorem Barrier.roundSync (succeeds : Bool) : Barrier (s.roundSync succeeds) := by
  unfold WalGroup.roundSync
  split
  case h_1 target seq n hround =>
    split
    · exact h.roundDone hround
    · have hseq := ((h.round _ hround).files_le _ rfl).1 seq mem_cons_self
      refine Barrier.roundFail ?_
      split
      · exact h
      · exact h.poison hseq
  case h_2 target seq files n hne hround =>
    split
    · refine h.roundNext ?_ hround
      rintro rfl
      exact hne rfl
    · exact h.roundFail
  case h_3 => exact h

/-- A demand is added, or one moves on. -/
theorem Barrier.setDemands (demands : List SyncDemand)
    (hdemands : ∀ d ∈ demands, d ∈ s.sync.demands ∨ s.DemandOk d) :
    Barrier { s with sync := { s.sync with demands } } := by
  refine h.coordinator _ rfl h.round h.success ?_
  intro d hd
  rcases hdemands d hd with hold | hnew
  · exact (h.demands d hold).mono rfl fun _ => id
  · exact hnew.mono rfl fun _ => id

/-- A demand is made. -/
theorem Barrier.demand : Barrier s.demand := by
  refine h.setDemands _ ?_
  intro d hd
  rcases mem_append.1 hd with hd | hd
  · exact .inl hd
  · rw [mem_singleton.1 hd]
    exact .inr ⟨h.generation.le, nofun, nofun⟩

/-- A demand is answered. -/
theorem Barrier.demandStep (i : Nat) : Barrier (s.demandStep i) := by
  have hset : ∀ d d', s.sync.demands[i]? = some d → s.DemandOk d' → Barrier (s.setDemand i d') := by
    intro d d' _ hd'
    refine h.setDemands _ ?_
    intro e he
    rcases mem_or_eq_of_mem_set he with he | rfl
    · exact .inl he
    · exact .inr hd'
  unfold WalGroup.demandStep
  split
  case h_3 => exact h
  case h_1 issued epoch hd =>
    have hok := h.demands _ (mem_of_getElem? hd)
    refine hset _ _ hd ⟨hok.issued_le, ?_, nofun⟩
    rintro target ⟨rfl⟩
    rw [h.generation]
    exact ⟨hok.issued_le, le_rfl⟩
  case h_2 issued epoch target hd =>
    have hok := h.demands _ (mem_of_getElem? hd)
    split
    case isTrue hcov => exact hset _ _ hd ⟨hok.issued_le, hok.target_le, fun _ => ⟨target, rfl, hcov⟩⟩
    case isFalse =>
      split
      · exact hset _ _ hd ⟨hok.issued_le, hok.target_le, nofun⟩
      · exact h

end

/-! ## Every step -/

/-- An fsync or a poisoning does not disturb the stage. -/
theorem StageStored.leads (h : s.StageStored) (hsink : s.sink.Leads sink)
    (hactive : sink.activeSeq = s.sink.activeSeq)
    (hframes : sink.active.frames = s.sink.active.frames) (sync : SyncCoordinator) :
    ({ s with sink, sync } : WalGroup).StageStored := by
  unfold StageStored at h ⊢
  simp only [stage?] at h ⊢
  split at h
  case h_1 => simpa only [hframes] using h
  case h_2 =>
    refine ⟨by simpa only [hframes] using h.1, ?_⟩
    have hdur := (hsink.grows s.sink.activeSeq).2
    have hle := hsink.wf.durable_le sink.activeSeq
    have hfull := h.2
    simp only [FrameSink.active, hactive] at hframes hfull hle ⊢
    rw [hframes] at hle ⊢
    omega
  case h_3 => exact h
  case h_4 => exact h
  case h_5 => trivial

section

variable (h : Barrier s)
include h

/-- After the publication the window's frames are in the sink. -/
theorem publish_stageStored (guard : LeaderGuard) : (s.publish guard).StageStored := by
  by_cases hany : s.hand.any (fun r => r.durability = .synced) = true
  · simp only [WalGroup.publish, hany]
    exact ⟨by simp, by simpa using Nat.lt_succ_of_le h.floor_le⟩
  · simp only [StageStored, WalGroup.publish, stage?, Option.map_some, if_neg hany]

/-- The window is rejected. -/
theorem reject_secured (guard : LeaderGuard) :
    Barrier (s.reject guard) ∧ (s.reject guard).StageStored := by
  unfold WalGroup.reject
  split <;> exact ⟨h.congr rfl, trivial⟩

section

variable (hstage : s.StageStored)
include hstage

/-- The leader appends. -/
theorem appendStep_secured (hmem : s.mem = false)
    (hleader : s.leader = some guard) (write : FrameWrite) (full succeeds : Bool) :
    Barrier (s.appendStep guard write full succeeds) ∧
      (s.appendStep guard write full succeeds).StageStored := by
  have hwrote := h.attempt write (windowFrames s.hand)
  have hstage' : ({ s with leader := some guard } : WalGroup).StageStored := by
    rw [← hleader]
    exact hstage
  unfold WalGroup.appendStep
  cases hg : guard.stage with
  | entering =>
    dsimp only
    split
    · split
      · exact ⟨(h.rotatePoisoned hmem).congr rfl, trivial⟩
      · exact reject_secured h guard
    · exact ⟨h.congr rfl, trivial⟩
  | first =>
    dsimp only
    split
    case isTrue hok =>
      split
      · exact ⟨hwrote.congr rfl, fun f hf => mem_active_attempt hok hf⟩
      · exact ⟨hwrote.publish guard fun f hf => .inr (mem_active_attempt hok hf),
          publish_stageStored hwrote guard⟩
    case isFalse => exact ⟨hwrote.congr rfl, trivial⟩
  | checking =>
    dsimp only
    split
    · exact ⟨h.congr rfl, trivial⟩
    · exact reject_secured h guard
  | rotating =>
    dsimp only
    split
    · exact ⟨(h.rotatePoisoned hmem).congr rfl, trivial⟩
    · exact reject_secured h guard
  | retrying =>
    dsimp only
    split
    case isTrue hok =>
      exact ⟨hwrote.publish guard fun f hf => .inr (mem_active_attempt hok hf),
        publish_stageStored hwrote guard⟩
    case isFalse => exact reject_secured hwrote guard
  | sealing =>
    simp only [StageStored, stage?, Option.map_some, hg] at hstage'
    dsimp only
    split
    · exact ⟨h, hstage⟩
    split
    · refine ⟨(h.fsync le_rfl le_rfl).congr rfl, ?_, fsyncActive_full h.wf⟩
      intro f hf
      show f ∈ s.sink.fsyncActive.active.frames
      rw [frames_fsyncActive]
      exact hstage' f hf
    · exact reject_secured (h.poison le_rfl) guard
  | swapping =>
    simp only [StageStored, stage?, Option.map_some, hg] at hstage'
    dsimp only
    split
    · have hswap := h.swap hmem hstage'.2
      refine ⟨hswap.publish guard fun f hf => .inl ?_, publish_stageStored hswap guard⟩
      exact durable_of_full hstage'.2 (hstage'.1 f hf)
    · exact reject_secured h guard
  | _ => exact ⟨h, hstage⟩

/-- The leader appends in memory. -/
theorem memAppend_secured (guard : LeaderGuard) (succeeds : Bool) :
    Barrier (s.memAppend guard succeeds) ∧ (s.memAppend guard succeeds).StageStored := by
  have hwrote := h.append (windowFrames s.hand)
  unfold WalGroup.memAppend
  split
  · split
    · exact ⟨hwrote.publish guard fun f hf => .inr (mem_active_append hf),
        publish_stageStored hwrote guard⟩
    · exact reject_secured h guard
  · exact ⟨h, hstage⟩

/-- The leader's sync ends. -/
theorem syncStep_secured (hleader : s.leader = some guard) (succeeds : Bool) :
    Barrier (s.syncStep guard succeeds) ∧ (s.syncStep guard succeeds).StageStored := by
  have hfinish : ∀ {s : WalGroup} (window : List WalRequest) (ok : Bool), Barrier s →
      Barrier (s.finishSync guard window ok) ∧ (s.finishSync guard window ok).StageStored := by
    intro s window ok h
    refine ⟨h.congr rfl, ?_⟩
    cases ok <;> trivial
  unfold WalGroup.syncStep
  split
  case h_1 window hg =>
    split
    · split
      · exact hfinish window true (h.fsync le_rfl le_rfl)
      · exact hfinish window false h
    · refine ⟨h.congr rfl, ?_⟩
      simp only [StageStored, stage?, hleader, Option.map_some, hg] at hstage
      exact ⟨hstage.1, hstage.2, h.generation⟩
  case h_2 window epoch target hg =>
    split
    · exact hfinish window true h
    · split
      · exact hfinish window false h
      · exact ⟨h, hstage⟩
  case h_3 => exact ⟨h, hstage⟩

/-- Every step of a leader. -/
theorem leaderStep_secured (hleader : s.leader = some guard) (e : Event) :
    Barrier (s.leaderStep guard e) ∧ (s.leaderStep guard e).StageStored := by
  unfold WalGroup.leaderStep
  split
  case h_1 =>
    split
    · unfold WalGroup.lead
      split
      · exact ⟨h.congr rfl, trivial⟩
      · split <;> exact ⟨h.congr rfl, trivial⟩
    · exact ⟨h, hstage⟩
  case h_2 =>
    split
    case isTrue => exact memAppend_secured h hstage guard _
    case isFalse hmem =>
      exact appendStep_secured h hstage (by simpa using hmem) hleader _ _ _
  case h_3 => exact syncStep_secured h hstage hleader _
  case h_4 =>
    split
    · exact ⟨h.congr rfl, trivial⟩
    · exact ⟨h, hstage⟩
  case h_5 =>
    unfold WalGroup.dropGuard
    cases guard.stage with
    | abandoning _ | stopping | releasing => exact ⟨h, hstage⟩
    | _ => exact ⟨h.congr rfl, trivial⟩
  case h_6 =>
    unfold WalGroup.dropStep
    cases guard.stage with
    | abandoning metas | stopping | releasing => exact ⟨h.congr rfl, trivial⟩
    | _ => exact ⟨h, hstage⟩
  case h_7 => exact ⟨h, hstage⟩

/-- A call looks for the lead. -/
theorem driveAndWait_secured (t : Nat) :
    Barrier (s.driveAndWait t) ∧ (s.driveAndWait t).StageStored := by
  -- the phases of the calls, and the guard of a new leader
  unfold WalGroup.driveAndWait
  repeat' split
  all_goals first
    | exact ⟨h, hstage⟩
    | exact ⟨h.congr rfl, hstage⟩
    | exact ⟨h.congr rfl, trivial⟩

end

end

/-- While a detached write is out, no stage claims anything about the sink. -/
theorem land_secured (hshape : Shape s) (h : Barrier s) (hstage : s.StageStored)
    (write : FrameWrite) : Barrier (s.land write) ∧ (s.land write).StageStored := by
  unfold WalGroup.land
  split
  case isFalse => exact ⟨h, hstage⟩
  case isTrue hdet =>
    refine ⟨(h.attempt write (windowFrames s.hand)).congr rfl, ?_⟩
    have hok := hshape.stage
    unfold StageStored
    split
    case h_1 hst | h_2 hst | h_3 hst | h_4 hst =>
      simp [StageOk, show s.stage? = _ from hst, hdet] at hok
    case h_5 => trivial

/-- A round keeps the frames of the window in the sink. -/
theorem roundSync_stageStored (h : Barrier s) (hstage : s.StageStored) (succeeds : Bool) :
    (s.roundSync succeeds).StageStored := by
  have hfail : ∀ {s : WalGroup}, s.StageStored → s.roundFail.StageStored := by
    intro s hstage
    unfold WalGroup.roundFail
    split <;> exact hstage
  have hsame : ∀ {seq : Nat} {seg : FrameSegment WalFrame},
      seg.frames = (s.sink.segments seq).frames →
      (s.sink.setSegment seq seg).active.frames = s.sink.active.frames :=
    fun hseg => segment_frames_setSegment s.sink _ _ hseg s.sink.activeSeq
  unfold WalGroup.roundSync
  split
  case h_1 target seq n hround =>
    have hok := h.round _ hround
    have hseq := (hok.files_le _ rfl).1 seq mem_cons_self
    split
    · exact hstage.leads (h.wf.leads_fsync hseq (hok.running seq [] n rfl rfl).1) rfl (hsame rfl) _
    · refine hfail ?_
      split
      · exact hstage
      · exact hstage.leads (h.wf.leads_poison hseq) rfl (hsame rfl) s.sync
  case h_2 target seq files n hne hround =>
    have hok := h.round _ hround
    have hseq := (hok.files_le _ rfl).1 seq mem_cons_self
    split
    · exact hstage.leads ((h.wf.leads_fsync hseq (hok.running seq files n rfl rfl).1).markSynced seq)
        rfl (hsame rfl) _
    · exact hfail hstage
  case h_3 => exact hstage

/-- The invariants of the group together. -/
structure Secured (s : WalGroup) : Prop where
  shape : Shape s
  barrier : Barrier s
  stage : s.StageStored

/-- Every step. -/
theorem barrier_step (hshape : Shape s) (h : Barrier s) (hstage : s.StageStored) (e : Event) :
    Barrier (s.step e) ∧ (s.step e).StageStored := by
  cases e with ((simp only [WalGroup.step, WalGroup.appendTicketed, WalGroup.appendMany,
    WalGroup.cancel]; repeat' split) <;>
    first | exact ⟨h, hstage⟩ | exact ⟨h.congr rfl, hstage⟩ | skip)
  | call t => exact driveAndWait_secured h hstage t
  | land write => exact land_secured hshape h hstage write
  | roundStart =>
    refine ⟨h.roundStart, ?_⟩
    unfold WalGroup.roundStart
    split <;> exact hstage
  | roundCapture =>
    refine ⟨h.roundCapture, ?_⟩
    unfold WalGroup.roundCapture
    split <;> exact hstage
  | roundFsync =>
    refine ⟨h.roundFsync, ?_⟩
    unfold WalGroup.roundFsync
    split <;> exact hstage
  | roundSync succeeds => exact ⟨h.roundSync succeeds, roundSync_stageStored h hstage succeeds⟩
  | roundFail =>
    refine ⟨h.roundFail, ?_⟩
    unfold WalGroup.roundFail
    split <;> exact hstage
  | demand => exact ⟨h.demand, hstage⟩
  | demandStep i =>
    refine ⟨h.demandStep i, ?_⟩
    unfold WalGroup.demandStep
    repeat' split
    all_goals exact hstage
  | _ => exact leaderStep_secured h hstage ‹_› _

/-- A new group. -/
theorem barrier_start (mem observer : Bool) : Barrier (start mem observer) where
  wf := wf_empty
  generation := rfl
  floor_le := le_rfl
  memory := fun _ => rfl
  sealed := fun i hi => absurd hi (Nat.not_lt_zero i)
  anchored := by simp [owed, start, windowFrames]
  round := nofun
  success := ⟨le_rfl, by simp [owed, start, windowFrames]⟩
  demands := nofun

/-- **The step lemma.** -/
theorem Secured.step (h : Secured s) (e : Event) : Secured (s.step e) := by
  obtain ⟨hbarrier, hstage⟩ := barrier_step h.shape h.barrier h.stage e
  exact ⟨h.shape.step e, hbarrier, hstage⟩

/-- The run lemma: every reachable group is secured. -/
theorem secured_run (mem observer : Bool) (es : List Event) :
    Secured (run step (start mem observer) es) :=
  run_invariant (fun _ e h => h.step e)
    ⟨shape_start mem observer, barrier_start mem observer, trivial⟩ es

end WalGroup

end ShamirDb
