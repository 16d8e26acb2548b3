/-
# The segment set is such a sink

The group commit is modelled over a sink of frames; the code runs it over a `SegmentSet`
of byte files.  `Represents` relates the two: the file of each segment is the frames of
the sink's segment, followed by a torn frame only if the segment is or was poisoned.

Every call of `append_batch`, whatever its system calls do, is a run of the leader's steps
between `entering` and the publication or the drop of its window.
-/
import ShamirDb.SegmentFaults
import ShamirDb.WalGroupCommit

namespace ShamirDb

open Machine WalSegment List Function

variable {Body : Type} (crc : Bytes → UInt32) (bincode : Bincode Body)

/-- The payloads of some frames, as they are written. -/
def payloadsOf (fs : List WalFrame) : List Bytes := fs.map WalFrame.payload

/-- The file holds the frames, and possibly a torn one after them. -/
def HoldsFrames (file : Bytes) (fs : List WalFrame) : Prop :=
  ∃ torn, Torn crc torn ∧ file = frames crc (payloadsOf fs) ++ torn

namespace SegmentSet

/-- The set is the sink on disk. -/
structure Represents (set : SegmentSet) (sink : FrameSink WalFrame) : Prop where
  wf : sink.WF
  seq : set.activeSeq = sink.activeSeq
  poisoned : set.active.poisoned = sink.active.poisoned
  active : HoldsFrames crc set.active.file sink.active.frames
  healthy : set.active.poisoned = false →
    set.active.file = frames crc (payloadsOf sink.active.frames) ∧
      set.active.bytesWritten = set.active.file.length
  closed : ∀ i < set.activeSeq, ∃ file, (i, file) ∈ set.closed ∧
    HoldsFrames crc file (sink.segments i).frames
  sealed : ∀ m ∈ set.sealed, m.seq < set.activeSeq ∧ m.synced = sink.synced m.seq

/-- What one write call of a batch is on frames: a batch that is not admitted is rejected,
a failed write keeps its complete frames unless the rollback succeeds. -/
def frameWrite (write : WriteOutcome) (payloads : List Bytes) (maxVersion : UInt64) : FrameWrite :=
  match admission bincode payloads maxVersion false with
  | .error _ => .rejected
  | .ok _ =>
    match write with
    | .ok => .ok
    | .fails written rollback =>
      if payloads.isEmpty then .ok
      else if rollback then .fails 0
      else .fails (framesWithin written payloads).length

variable {crc bincode} {set : SegmentSet} {sink : FrameSink WalFrame}

/-- A call on the active segment that leaves `r` is the attempt `a` of the sink. -/
def Performs (crc : Bytes → UInt32) (set : SegmentSet) (r : DbResult Nat × WalSegment)
    (a : Bool × FrameSink WalFrame) : Prop :=
  Represents crc { set with active := r.2 } a.2 ∧ r.1.toBool = a.1

/-- The payloads of two batches. -/
theorem payloadsOf_append (fs gs : List WalFrame) :
    payloadsOf (fs ++ gs) = payloadsOf fs ++ payloadsOf gs :=
  map_append

/-- A fresh set is the empty sink. -/
theorem represents_fresh (dir : String) (maxBytes : Nat) :
    Represents crc (fresh dir maxBytes) FrameSink.empty :=
  ⟨FrameSink.wf_empty, rfl, rfl, ⟨[], torn_nil, rfl⟩, fun _ => ⟨rfl, rfl⟩,
    fun i hi => absurd hi (Nat.not_lt_zero i), nofun⟩

section

variable (h : Represents crc set sink) {fs : List WalFrame} {entries : List (WalEntryV2 Body)}
include h

/-- Both active segments change alike. -/
theorem Represents.setActive {active : WalSegment}
    {seg : FrameSegment WalFrame} (hdurable : seg.durable ≤ seg.frames.length)
    (hpoisoned : active.poisoned = seg.poisoned) (hfile : HoldsFrames crc active.file seg.frames)
    (hhealthy : active.poisoned = false → active.file = frames crc (payloadsOf seg.frames) ∧
      active.bytesWritten = active.file.length) :
    Represents crc { set with active } (sink.setSegment sink.activeSeq seg) := by
  have hact : (sink.setSegment sink.activeSeq seg).active = seg := by
    simp [FrameSink.active, FrameSink.setSegment]
  refine ⟨h.wf.setSegment le_rfl hdurable, h.seq, by rw [hact, hpoisoned], by rwa [hact],
    by rwa [hact], ?_, h.sealed⟩
  intro i hi
  have hne : i ≠ sink.activeSeq := by
    rw [← h.seq]
    exact hi.ne
  simpa only [FrameSink.setSegment, update_of_ne hne] using h.closed i hi

/-- A write that succeeds, or has nothing to write. -/
theorem Represents.attempt_ok (hpois : set.active.poisoned = false)
    (henc : EncodesAll bincode (payloadsOf fs) entries) (maxVersion : UInt64) :
    Performs crc set (set.active.appendBatch crc bincode .ok (payloadsOf fs) maxVersion)
      (sink.attempt .ok fs) := by
  obtain ⟨n, happend⟩ := appendBatch_ok crc hpois henc maxVersion
  obtain ⟨hfile, hbytes⟩ := h.healthy hpois
  have hgrown : set.active.file ++ frames crc (payloadsOf fs) =
      frames crc (payloadsOf (sink.active.frames ++ fs)) := by
    rw [hfile, payloadsOf_append, frames_append]
  rw [happend]
  simp only [FrameSink.attempt, ← h.poisoned, hpois]
  refine ⟨h.setActive ?_ ?_ ⟨[], torn_nil, ?_⟩ fun _ => ⟨hgrown, ?_⟩, rfl⟩
  · have hle := h.wf.durable_le sink.activeSeq
    simp only [FrameSink.active, length_append]
    omega
  · exact h.poisoned
  · rw [append_nil]
    exact hgrown
  · simp [hbytes]

/-- A write that fails after some bytes. -/
theorem Represents.attempt_fails (hpois : set.active.poisoned = false) (hne : payloadsOf fs ≠ [])
    (henc : EncodesAll bincode (payloadsOf fs) entries) (maxVersion : UInt64) (written : Nat)
    (rollback : Bool) :
    Performs crc set
      (set.active.appendBatch crc bincode (.fails written rollback) (payloadsOf fs) maxVersion)
      (sink.attempt (.fails (if rollback then 0 else
        (framesWithin written (payloadsOf fs)).length)) fs) := by
  obtain ⟨hfile, hbytes⟩ := h.healthy hpois
  rw [appendBatch_fails crc hpois hne henc]
  simp only [FrameSink.attempt, ← h.poisoned, hpois]
  refine ⟨h.setActive ?_ rfl ?_ nofun, rfl⟩
  · have hle := h.wf.durable_le sink.activeSeq
    simp only [FrameSink.active, length_append]
    omega
  cases rollback with
  | true =>
    refine ⟨[], torn_nil, ?_⟩
    simp [hbytes, hfile]
  | false =>
    obtain ⟨torn, htorn, htake⟩ := take_frames henc.length_le written
    refine ⟨torn, htorn, ?_⟩
    -- the complete frames inside the written bytes are a prefix of the batch
    have hkept : framesWithin written (payloadsOf fs) =
        payloadsOf (fs.take (framesWithin written (payloadsOf fs)).length) := by
      exact (prefix_iff_eq_take.1 (framesWithin_isPrefix written _)).trans map_take.symm
    simp only [Bool.false_eq_true, if_false]
    rw [payloadsOf_append, ← hkept, frames_append, htake, hfile, append_assoc]

/-- **One write.**  A call of the segment's `append_batch` is an attempt of the sink. -/
theorem Represents.attempt (bincode : Bincode Body)
    (write : WriteOutcome) (fs : List WalFrame) (maxVersion : UInt64) :
    Performs crc set (set.active.appendBatch crc bincode write (payloadsOf fs) maxVersion)
      (sink.attempt (frameWrite bincode write (payloadsOf fs) maxVersion) fs) := by
  cases hpois : set.active.poisoned with
  | true =>
    have hrefused : set.active.appendBatch crc bincode write (payloadsOf fs) maxVersion =
        (.error (refused set.active.path), set.active) := by
      simp [WalSegment.appendBatch, hpois]
    rw [hrefused]
    simp only [FrameSink.attempt, ← h.poisoned, hpois]
    exact ⟨h, rfl⟩
  | false =>
    cases hadm : admission bincode (payloadsOf fs) maxVersion false with
    | error e =>
      have hrejected : set.active.appendBatch crc bincode write (payloadsOf fs) maxVersion =
          (.error e, set.active) := by
        simp [WalSegment.appendBatch, hpois, hadm]
      rw [hrejected]
      simp only [FrameSink.attempt, ← h.poisoned, hpois, hadm, frameWrite]
      exact ⟨h, rfl⟩
    | ok r =>
      obtain ⟨entries, henc⟩ := encodesAll_of_admission hadm
      cases write with
      | ok =>
        simp only [frameWrite, hadm]
        exact h.attempt_ok hpois henc maxVersion
      | fails written rollback =>
        by_cases hne : payloadsOf fs = []
        · have hok := h.attempt_ok hpois henc maxVersion
          rw [hne] at hok ⊢
          exact hok
        have hwrite : frameWrite bincode (.fails written rollback) (payloadsOf fs) maxVersion =
            .fails (if rollback then 0 else (framesWithin written (payloadsOf fs)).length) := by
          simp only [frameWrite, hadm, List.isEmpty_iff, if_neg hne]
          split <;> rfl
        rw [hwrite]
        exact h.attempt_fails hpois hne henc maxVersion written rollback

/-- A rotation, under a record with the segment's number and the sink's flag. -/
theorem Represents.swap (record : SealedMeta) (hseq : record.seq = set.activeSeq) :
    Represents crc (set.swap record) (sink.rotate record.synced) := by
  have hnext : (sink.rotate record.synced).active = ⟨[], 0, false⟩ :=
    h.wf.ahead (sink.activeSeq + 1) (Nat.lt_succ_self _)
  refine ⟨(h.wf.leads_rotate record.synced).wf, congrArg (· + 1) h.seq, ?_, ?_, ?_, ?_, ?_⟩
  · rw [hnext]
    rfl
  · rw [hnext]
    exact ⟨[], torn_nil, rfl⟩
  · rw [hnext]
    exact fun _ => ⟨rfl, rfl⟩
  · intro i hi
    rcases Nat.lt_succ_iff_lt_or_eq.1 hi with hi | rfl
    · obtain ⟨file, hmem, hfile⟩ := h.closed i hi
      exact ⟨file, mem_append_left _ hmem, hfile⟩
    · refine ⟨set.active.file, mem_append_right _ mem_cons_self, ?_⟩
      rw [h.seq]
      exact h.active
  · intro m hm
    rcases mem_append.1 hm with hm | hm
    · obtain ⟨hlt, hsync⟩ := h.sealed m hm
      have hne : m.seq ≠ sink.activeSeq := by
        rw [← h.seq]
        exact hlt.ne
      refine ⟨Nat.lt_succ_of_lt hlt, ?_⟩
      rw [hsync]
      exact (update_of_ne hne _ _).symm
    · rw [mem_singleton.1 hm, hseq]
      refine ⟨Nat.lt_succ_self _, ?_⟩
      rw [h.seq]
      simp [FrameSink.rotate]

/-- Sidecars are no matter of the sink. -/
theorem Represents.setMetas (metas : Nat → Option Bytes) : Represents crc { set with metas } sink :=
  { h with }

/-- A poisoned segment is sealed on both sides. -/
theorem Represents.rotateAfterPoison : Represents crc set.rotateAfterPoison (sink.rotate false) :=
  (h.setMetas _).swap _ rfl

/-- A sync is a matter of the sink only. -/
theorem Represents.fsyncActive : Represents crc set sink.fsyncActive := by
  show Represents crc { set with active := set.active } sink.fsyncActive
  exact h.setActive (max_le (h.wf.durable_le sink.activeSeq) le_rfl) h.poisoned h.active h.healthy

/-- Both active segments are poisoned. -/
theorem Represents.poison :
    Represents crc { set with active := { set.active with poisoned := true } }
      (sink.poison sink.activeSeq) :=
  h.setActive (h.wf.durable_le sink.activeSeq) rfl h.active nofun

end

/-! ## A whole call -/

/-- How a call of `append_batch` ends for the leader: its window is settled, or its guard
is dropped. -/
def Ends (s : WalGroup) (guard : LeaderGuard) (ok : Bool) (s' : WalGroup) : Prop :=
  if ok then s'.settled = s.settled ++ [s.hand]
  else s'.leader = some { guard with stage := .abandoning s.hand }

/-- A step of the leader inside `append_batch`: what its write does, whether the segment is
then full, whether its fsync succeeds. -/
def lead (s : WalGroup) : FrameWrite × Bool × Bool → WalGroup
  | (write, full, succeeds) => s.step (.append write full succeeds)

/-- The leader alone runs from `s` to the end of a call with the result `r.1` that leaves
the set `r.2`. -/
def Simulates (crc : Bytes → UInt32) (s : WalGroup) (guard : LeaderGuard)
    (r : DbResult Nat × SegmentSet) : Prop :=
  ∃ es, Represents crc r.2 (run lead s es).sink ∧ Ends s guard r.1.toBool (run lead s es)

variable {s : WalGroup} {guard : LeaderGuard}

/-- The leader's call is an append. -/
theorem lead_eq (hleader : s.leader = some guard) (hmem : s.mem = false) (write : FrameWrite)
    (full succeeds : Bool) :
    lead s (write, full, succeeds) = s.appendStep guard write full succeeds := by
  simp [lead, WalGroup.step, WalGroup.leaderStep, hleader, hmem]

/-- A publication ends the call with success. -/
theorem ends_publish (sink : FrameSink WalFrame) :
    Ends s guard true (({ s with sink } : WalGroup).publish guard) := rfl

/-- A rejection ends it with an error. -/
theorem ends_reject (hmem : s.mem = false) (sink : FrameSink WalFrame) :
    Ends s guard false (({ s with sink } : WalGroup).reject guard) := by
  simp [Ends, WalGroup.reject, hmem, WalGroup.setStage]

/-- A step of the leader before the end of the call. -/
theorem Simulates.cons {r : DbResult Nat × SegmentSet} (e : FrameWrite × Bool × Bool)
    (s' : WalGroup) (stage : LeadStage) (hstep : lead s e = s'.setStage guard stage)
    (hsame : (s'.settled, s'.hand) = (s.settled, s.hand))
    (h : Simulates crc (s'.setStage guard stage) { guard with stage } r) :
    Simulates crc s guard r := by
  obtain ⟨es, hset, hends⟩ := h
  simp only [Prod.mk.injEq] at hsame
  refine ⟨e :: es, by rwa [run_cons, hstep], ?_⟩
  rw [run_cons, hstep]
  simpa only [Ends, WalGroup.setStage, hsame.1, hsame.2] using hends

variable (s guard)

section

variable (h : Represents crc set s.sink) (hmem : s.mem = false)
include h hmem

/-- The retry on a fresh segment ends the call. -/
theorem simulates_retry (bincode : Bincode Body) (write : WriteOutcome) (maxVersion : UInt64) :
    let r := set.active.appendBatch crc bincode write (payloadsOf (windowFrames s.hand)) maxVersion
    Simulates crc (s.setStage guard .retrying) { guard with stage := .retrying }
      (r.1, { set with active := r.2 }) := by
  obtain ⟨hset, hok⟩ := h.attempt bincode write (windowFrames s.hand) maxVersion
  refine ⟨[(frameWrite bincode write (payloadsOf (windowFrames s.hand)) maxVersion, false,
    true)], ?_⟩
  rw [run_cons, lead_eq (s := s.setStage guard .retrying) rfl hmem, hok]
  simp only [WalGroup.appendStep]
  split
  case isTrue hres =>
    rw [show (s.sink.attempt _ (windowFrames s.hand)).1 = true from hres]
    exact ⟨hset, ends_publish _⟩
  case isFalse hres =>
    rw [Bool.not_eq_true] at hres
    rw [show (s.sink.attempt _ (windowFrames s.hand)).1 = false from hres]
    refine ⟨?_, ends_reject hmem _⟩
    simpa [WalGroup.reject, hmem, WalGroup.setStage] using hset

/-- The swap after the seal's fsync ends the call. -/
theorem simulates_swap (metas : Nat → Option Bytes) (last : Nat) :
    Simulates crc (s.setStage guard .swapping) { guard with stage := .swapping }
      (.ok last, { set.swap set.sealRecord with metas }) := by
  refine ⟨[(.ok, false, true)], ?_⟩
  rw [run_cons, lead_eq (s := s.setStage guard .swapping) rfl hmem]
  exact ⟨(h.swap set.sealRecord rfl).setMetas metas, ends_publish _⟩

/-- The seal of a full segment. -/
theorem simulates_seal (hgate : s.sync.round.bind SyncRound.files = none)
    (hfull : set.maxBytes ≤ set.active.bytesWritten) (syncOk sidecarOk : Bool) (last : Nat) :
    Simulates crc (s.setStage guard .sealing) { guard with stage := .sealing }
      ((set.sealAndRotate crc syncOk sidecarOk).map (·.map fun _ => last) id) := by
  have hstep := lead_eq (s := s.setStage guard .sealing) rfl hmem .ok false syncOk
  simp only [WalGroup.appendStep, WalGroup.setStage, hgate] at hstep
  unfold SegmentSet.sealAndRotate
  rw [if_neg (not_lt.2 hfull)]
  cases syncOk with
  | false =>
    refine ⟨[(.ok, false, false)], ?_⟩
    rw [run_cons, WalGroup.setStage, hstep]
    refine ⟨?_, ends_reject hmem _⟩
    simpa [WalGroup.reject, hmem, WalGroup.setStage, WalSegment.sync] using h.poison
  | true =>
    refine Simulates.cons _ ({ s with sink := s.sink.fsyncActive }) _ hstep rfl ?_
    simp only [WalSegment.sync, if_true]
    split
    · exact simulates_swap { s with sink := s.sink.fsyncActive } _ h.fsyncActive hmem _ last
    · exact simulates_swap { s with sink := s.sink.fsyncActive } _ h.fsyncActive hmem set.metas last

/-- After a failed first attempt: rotate a poisoned segment out and retry once. -/
theorem simulates_failed (bincode : Bincode Body) (write : WriteOutcome) (maxVersion : UInt64)
    (e : DbError) :
    let r := set.rotateAfterPoison.active.appendBatch crc bincode write
      (payloadsOf (windowFrames s.hand)) maxVersion
    Simulates crc (s.setStage guard .checking) { guard with stage := .checking }
      (if set.active.poisoned then (r.1, { set.rotateAfterPoison with active := r.2 })
      else (.error e, set)) := by
  have hchecked := lead_eq (s := s.setStage guard .checking) rfl hmem .ok false true
  simp only [WalGroup.appendStep, WalGroup.setStage, ← h.poisoned] at hchecked
  cases hpois : set.active.poisoned with
  | false =>
    rw [hpois] at hchecked
    refine ⟨[(.ok, false, true)], ?_⟩
    rw [run_cons, WalGroup.setStage, hchecked]
    refine ⟨?_, ends_reject hmem s.sink⟩
    simpa [WalGroup.reject, hmem, WalGroup.setStage] using h
  | true =>
    rw [hpois] at hchecked
    have hrotated := lead_eq (s := s.setStage guard .rotating) rfl hmem .ok false true
    refine Simulates.cons _ s _ hchecked rfl ?_
    refine Simulates.cons _ (s.setStage guard .rotating).rotatePoisoned _ hrotated rfl ?_
    exact simulates_retry (s.setStage guard .rotating).rotatePoisoned _ h.rotateAfterPoison hmem
      bincode write maxVersion

/-- The first attempt of a call and what follows from it. -/
theorem simulates_first (bincode : Bincode Body) (hgate : s.sync.round.bind SyncRound.files = none)
    (faults : AppendFaults) (maxVersion : UInt64) :
    Simulates crc (s.setStage guard .first) { guard with stage := .first }
      (set.appendActive crc bincode faults (payloadsOf (windowFrames s.hand)) maxVersion) := by
  obtain ⟨hset, hok⟩ := h.attempt bincode faults.write (windowFrames s.hand) maxVersion
  unfold SegmentSet.appendActive
  generalize set.active.appendBatch crc bincode faults.write (payloadsOf (windowFrames s.hand))
    maxVersion = first at hset hok
  generalize frameWrite bincode faults.write (payloadsOf (windowFrames s.hand)) maxVersion =
    write at hset hok
  obtain ⟨result, active⟩ := first
  let wrote : WalGroup := { s with sink := (s.sink.attempt write (windowFrames s.hand)).2 }
  have hstep := fun full => lead_eq (s := s.setStage guard .first) rfl hmem write full true
  simp only [WalGroup.appendStep, WalGroup.setStage, ← hok] at hstep
  cases result with
  | ok last =>
    by_cases hfull : set.maxBytes ≤ active.bytesWritten
    · simp only [hfull]
      refine Simulates.cons _ wrote _ (hstep true) rfl ?_
      have hseal := simulates_seal wrote { guard with stage := .first } hset hmem hgate (by exact hfull)
        faults.syncOk faults.sidecarOk last
      generalize ({ set with active } : SegmentSet).sealAndRotate crc faults.syncOk
        faults.sidecarOk = rotated at hseal
      obtain ⟨result, rotated⟩ := rotated
      cases result <;> exact hseal
    · simp only [hfull]
      refine ⟨[(write, false, true)], ?_⟩
      rw [run_cons, WalGroup.setStage, hstep]
      exact ⟨hset, ends_publish _⟩
  | error e =>
    refine Simulates.cons _ wrote _ (hstep false) rfl ?_
    have hfailed := simulates_failed wrote { guard with stage := .first } hset hmem bincode
      faults.retryWrite maxVersion e
    simp only
    split
    case isTrue hpois => simpa only [hpois, if_true] using hfailed
    case isFalse hpois => simpa only [hpois, Bool.false_eq_true, if_false] using hfailed

end

variable {s guard}

/-- **The group commit runs on the segment set.**  With the sync gate free, every call of
`append_batch`, whatever its writes, rollbacks and fsyncs do, is a run of the leader's
steps over the sink the set represents, and the leader learns what the call returned. -/
theorem simulates_appendBatch (h : Represents crc set s.sink) (hmem : s.mem = false)
    (hleader : s.leader = some guard) (hstage : guard.stage = .entering)
    (hgate : s.sync.round.bind SyncRound.files = none) (faults : AppendFaults)
    (maxVersion : UInt64) :
    Simulates crc s guard
      (set.appendBatch crc bincode faults (payloadsOf (windowFrames s.hand)) maxVersion) := by
  have hstep := lead_eq hleader hmem .ok false true
  simp only [WalGroup.appendStep, hstage, ← h.poisoned] at hstep
  unfold SegmentSet.appendBatch
  cases hpois : set.active.poisoned with
  | false =>
    rw [hpois] at hstep
    refine Simulates.cons _ s _ hstep rfl ?_
    exact simulates_first s guard h hmem bincode hgate faults maxVersion
  | true =>
    rw [hpois] at hstep
    refine Simulates.cons _ s.rotatePoisoned _ hstep rfl ?_
    exact simulates_first s.rotatePoisoned guard h.rotateAfterPoison hmem bincode hgate faults
      maxVersion

/-- The first write of the window stops after three bytes and the rollback fails: the segment is
rotated out, the retry succeeds, and the full segment is sealed. -/
theorem simulates_appendBatch_fresh :
    let s : WalGroup := { WalGroup.start false false with
      leader := some ⟨none, false, 0, .entering⟩
      hand := [⟨0, [(WalEntryV2.sample 7, 7)], .synced⟩] }
    Simulates crc32 s ⟨none, false, 0, .entering⟩
      ((fresh "" 8).appendBatch crc32 Bincode.entries ⟨.fails 3 false, true, true, .ok⟩
        (payloadsOf (windowFrames s.hand)) 7) :=
  simulates_appendBatch (represents_fresh "" 8) rfl rfl rfl rfl _ 7

end SegmentSet

end ShamirDb
