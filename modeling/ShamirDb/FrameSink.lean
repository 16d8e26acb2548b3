/-
# A log sink, frame by frame

What the group-commit coordinator sees of its sink: numbered segments of complete frames,
one of them active, a poison flag on each, and for each the number of leading frames that
a successful fsync has covered.  `SegmentSet` is such a sink with bytes for frames; a
memory sink is one with a single segment that is never rotated or poisoned.

The operations are the ones that `append_batch`, the two rotations and the sync worker
are made of.  Every one of them only adds frames at the end of a segment and never takes
back durability (`Grows`).
-/
import Mathlib.Data.List.Basic
import Mathlib.Logic.Function.Basic
import Mathlib.Order.Nat
import Mathlib.Tactic.Common

namespace ShamirDb

open List Function

/-- A segment: its complete frames, how many of them are durable, and the poison flag. -/
structure FrameSegment (F : Type) where
  frames : List F
  durable : Nat
  poisoned : Bool

/-- Numbered segments up to the active one; `synced` is the flag of a sealed segment's
record. -/
structure FrameSink (F : Type) where
  segments : Nat → FrameSegment F
  activeSeq : Nat
  synced : Nat → Bool

/-- What one attempt to write a batch does: everything is written, the batch is refused
before the write, or the write fails and leaves the first `kept` frames behind (none if
the rollback succeeds). -/
inductive FrameWrite where
  | ok
  | rejected
  | fails (kept : Nat)
  deriving DecidableEq

/-- The number of complete frames a failed write leaves behind. -/
def FrameWrite.kept : FrameWrite → Nat
  | .fails kept => kept
  | _ => 0

namespace FrameSink

variable {F : Type} {s s' s'' : FrameSink F}

def empty : FrameSink F := ⟨fun _ => ⟨[], 0, false⟩, 0, fun _ => false⟩

def active (s : FrameSink F) : FrameSegment F := s.segments s.activeSeq

/-- Every frame in the sink, segment by segment. -/
def frames (s : FrameSink F) : List F :=
  (range (s.activeSeq + 1)).flatMap fun i => (s.segments i).frames

/-- Replace one segment. -/
def setSegment (s : FrameSink F) (seq : Nat) (seg : FrameSegment F) : FrameSink F :=
  { s with segments := update s.segments seq seg }

/-- Write a batch at the end of the active segment. -/
def append (batch : List F) (s : FrameSink F) : FrameSink F :=
  s.setSegment s.activeSeq { s.active with frames := s.active.frames ++ batch }

/-- One attempt to append to the active segment; the flag says whether it succeeded. -/
def attempt (write : FrameWrite) (batch : List F) (s : FrameSink F) : Bool × FrameSink F :=
  if s.active.poisoned then (false, s)
  else
    match write with
    | .rejected => (false, s)
    | .ok => (true, s.append batch)
    | .fails kept =>
      (false, s.setSegment s.activeSeq
        { s.active with frames := s.active.frames ++ batch.take kept, poisoned := true })

/-- Seal the active segment and start the next one. -/
def rotate (synced : Bool) (s : FrameSink F) : FrameSink F :=
  { s with activeSeq := s.activeSeq + 1, synced := update s.synced s.activeSeq synced }

/-- A successful fsync of one segment that started when the segment had `n` frames. -/
def fsync (seq n : Nat) (s : FrameSink F) : FrameSink F :=
  s.setSegment seq { s.segments seq with durable := max (s.segments seq).durable n }

/-- A successful fsync of the active segment with no write going on. -/
def fsyncActive (s : FrameSink F) : FrameSink F :=
  s.fsync s.activeSeq s.active.frames.length

/-- A failed fsync through the segment's own handle. -/
def poison (seq : Nat) (s : FrameSink F) : FrameSink F :=
  s.setSegment seq { s.segments seq with poisoned := true }

/-- The record of a sealed segment is marked as synced. -/
def markSynced (seq : Nat) (s : FrameSink F) : FrameSink F :=
  { s with synced := update s.synced seq true }

/-- The frame is in a file that had a successful fsync after it was written. -/
def Durable (s : FrameSink F) (f : F) : Prop :=
  ∃ i, f ∈ (s.segments i).frames.take (s.segments i).durable

/-! ## Growth -/

/-- Frames are only added at the end of a segment, and durability is only gained. -/
def Grows (s s' : FrameSink F) : Prop :=
  ∀ i, (s.segments i).frames <+: (s'.segments i).frames ∧
    (s.segments i).durable ≤ (s'.segments i).durable

/-- A sink grows to itself. -/
theorem Grows.refl (s : FrameSink F) : Grows s s := fun _ => ⟨prefix_rfl, le_rfl⟩

/-- Growth is transitive. -/
theorem Grows.trans (h : Grows s s') (h' : Grows s' s'') : Grows s s'' :=
  fun i => ⟨(h i).1.trans (h' i).1, (h i).2.trans (h' i).2⟩

variable {s : FrameSink F} {f : F} {seq n : Nat} {seg : FrameSegment F} {batch : List F}

/-- A frame stays in its segment. -/
theorem Grows.mem (h : Grows s s') {i : Nat} (hf : f ∈ (s.segments i).frames) :
    f ∈ (s'.segments i).frames :=
  (h i).1.subset hf

/-- **Durability is for good.** -/
theorem Grows.durable (h : Grows s s') (hf : s.Durable f) : s'.Durable f := by
  obtain ⟨i, hi⟩ := hf
  obtain ⟨more, hmore⟩ := (h i).1
  refine ⟨i, ?_⟩
  rw [← hmore]
  have hsub : (s.segments i).frames.take (s.segments i).durable <+:
      ((s.segments i).frames ++ more).take (s'.segments i).durable := by
    refine prefix_of_prefix_length_le
      (( take_prefix _ _).trans (prefix_append _ _)) ( take_prefix _ _) ?_
    rw [length_take, length_take, length_append]
    have := (h i).2
    omega
  exact hsub.subset hi

/-- A segment that gets more frames. -/
theorem grows_setSegment (s : FrameSink F) (seq : Nat) (seg : FrameSegment F)
    (hframes : (s.segments seq).frames <+: seg.frames)
    (hdurable : (s.segments seq).durable ≤ seg.durable) : Grows s (s.setSegment seq seg) := by
  intro i
  by_cases hi : i = seq
  · subst hi
    simpa [setSegment] using ⟨hframes, hdurable⟩
  · simp [setSegment, update_of_ne hi]

/-! ## Sinks in order -/

/-- Nothing was written past the active segment, and no more is durable than written. -/
structure WF (s : FrameSink F) : Prop where
  ahead : ∀ i, s.activeSeq < i → s.segments i = ⟨[], 0, false⟩
  durable_le : ∀ i, (s.segments i).durable ≤ (s.segments i).frames.length

/-- The empty sink. -/
theorem wf_empty : WF (empty : FrameSink F) := ⟨fun _ _ => rfl, fun _ => le_rfl⟩

/-- A segment is replaced by a well-formed one. -/
theorem WF.setSegment (h : WF s) (hseq : seq ≤ s.activeSeq)
    (hdurable : seg.durable ≤ seg.frames.length) : WF (s.setSegment seq seg) := by
  refine ⟨fun i hi => ?_, fun i => ?_⟩
  · have hne : i ≠ seq := by
      have : s.activeSeq < i := hi
      omega
    exact (update_of_ne hne _ _).trans (h.ahead i hi)
  · by_cases hi : i = seq
    · subst hi
      simpa [FrameSink.setSegment] using hdurable
    · simpa [FrameSink.setSegment, update_of_ne hi] using h.durable_le i

/-- A frame below the synced length is durable. -/
theorem durable_fsync {seq : Nat} (hf : f ∈ (s.segments seq).frames.take n) :
    (s.fsync seq n).Durable f := by
  refine ⟨seq, ?_⟩
  simp only [fsync, setSegment, update_self]
  exact (take_sublist_take_left (le_max_right _ n)).subset hf

/-- In a segment that is synced to its end every frame is durable. -/
theorem durable_of_full (hfull : (s.segments seq).durable = (s.segments seq).frames.length)
    (hf : f ∈ (s.segments seq).frames) : s.Durable f :=
  ⟨seq, by rwa [hfull, take_length]⟩

/-- A sync keeps the frames. -/
theorem frames_fsyncActive (s : FrameSink F) : s.fsyncActive.active.frames = s.active.frames := by
  simp [fsyncActive, fsync, setSegment, active]

/-- After a sync the active segment is durable to its end. -/
theorem fsyncActive_full (h : WF s) :
    s.fsyncActive.active.durable = s.fsyncActive.active.frames.length := by
  have hle := h.durable_le s.activeSeq
  simp [fsyncActive, fsync, setSegment, active, max_eq_right hle]

/-- A durable frame is in one of the segments so far. -/
theorem durable_iff (h : WF s) (f : F) :
    s.Durable f ↔ ∃ i < s.activeSeq + 1, f ∈ (s.segments i).frames.take (s.segments i).durable := by
  constructor
  · rintro ⟨i, hi⟩
    refine ⟨i, ?_, hi⟩
    by_contra hlt
    rw [h.ahead i (by omega)] at hi
    simp at hi
  · rintro ⟨i, -, hi⟩
    exact ⟨i, hi⟩

/-! ## Running sinks -/

/-- What the sink can become: it grows, the active segment only moves forward, and sealed
segments get no frames any more. -/
structure Leads (s s' : FrameSink F) : Prop where
  grows : Grows s s'
  wf : WF s'
  active_le : s.activeSeq ≤ s'.activeSeq
  sealed : ∀ i < s.activeSeq, (s'.segments i).frames = (s.segments i).frames

/-- A sink leads to itself. -/
theorem Leads.refl (h : WF s) : Leads s s :=
  ⟨Grows.refl s, h, le_rfl, fun _ _ => rfl⟩

/-- Steps compose. -/
theorem Leads.trans (h : Leads s s') (h' : Leads s' s'') : Leads s s'' :=
  ⟨h.grows.trans h'.grows, h'.wf, h.active_le.trans h'.active_le,
    fun i hi => (h'.sealed i (hi.trans_le h.active_le)).trans (h.sealed i hi)⟩

section

variable (h : WF s)
include h

/-- A segment gets frames; a sealed one keeps its own. -/
theorem WF.leads_setSegment (hseq : seq ≤ s.activeSeq)
    (hframes : (s.segments seq).frames <+: seg.frames)
    (hdurable : (s.segments seq).durable ≤ seg.durable) (hle : seg.durable ≤ seg.frames.length)
    (hsealed : seq < s.activeSeq → seg.frames = (s.segments seq).frames) :
    Leads s (s.setSegment seq seg) := by
  refine ⟨grows_setSegment s seq seg hframes hdurable, h.setSegment hseq hle, le_rfl, ?_⟩
  intro i hi
  by_cases heq : i = seq
  · subst heq
    simpa [FrameSink.setSegment] using hsealed hi
  · simp [FrameSink.setSegment, update_of_ne heq]

/-- A sync of a segment. -/
theorem WF.leads_fsync {seq : Nat} (hseq : seq ≤ s.activeSeq)
    (hn : n ≤ (s.segments seq).frames.length) : Leads s (s.fsync seq n) :=
  h.leads_setSegment hseq prefix_rfl (le_max_left _ _) (max_le (h.durable_le seq) hn) fun _ => rfl

/-- A segment is poisoned. -/
theorem WF.leads_poison (hseq : seq ≤ s.activeSeq) : Leads s (s.poison seq) :=
  h.leads_setSegment hseq prefix_rfl le_rfl (h.durable_le seq) fun _ => rfl

/-- A batch is appended. -/
theorem WF.leads_append (batch : List F) : Leads s (s.append batch) := by
  have hle := h.durable_le s.activeSeq
  refine h.leads_setSegment le_rfl (prefix_append _ _) le_rfl ?_ (by simp)
  simp [active]
  omega

/-- An append that may fail. -/
theorem WF.leads_attempt (write : FrameWrite) (batch : List F) :
    Leads s (s.attempt write batch).2 := by
  unfold FrameSink.attempt
  split
  · exact Leads.refl h
  cases write with
  | ok => exact h.leads_append batch
  | rejected => exact Leads.refl h
  | fails kept =>
    have hle := h.durable_le s.activeSeq
    refine h.leads_setSegment le_rfl (prefix_append _ _) le_rfl ?_ (by simp)
    simp [active]
    omega

/-- A rotation, whether its sync succeeds or not. -/
theorem WF.leads_rotate (synced : Bool) : Leads s (s.rotate synced) :=
  ⟨Grows.refl s, ⟨fun i hi => h.ahead i (Nat.lt_of_succ_lt hi), h.durable_le⟩, Nat.le_succ _,
    fun _ _ => rfl⟩

end

/-- The bookkeeping of a sync. -/
theorem Leads.markSynced (h : Leads s s') (seq : Nat) : Leads s (s'.markSynced seq) :=
  ⟨h.grows, ⟨h.wf.ahead, h.wf.durable_le⟩, h.active_le, h.sealed⟩

/-- Attempts leave the numbering of the segments alone. -/
@[simp] theorem attempt_activeSeq (write : FrameWrite) (batch : List F) (s : FrameSink F) :
    (s.attempt write batch).2.activeSeq = s.activeSeq := by
  unfold attempt
  split
  · rfl
  · cases write <;> rfl

/-- An append does not count as a sync. -/
@[simp] theorem attempt_synced (write : FrameWrite) (batch : List F) (s : FrameSink F) :
    (s.attempt write batch).2.synced = s.synced := by
  unfold attempt
  split
  · rfl
  · cases write <;> rfl

/-- The frames of the batch are in the active segment. -/
theorem mem_active_append (hf : f ∈ batch) : f ∈ (s.append batch).active.frames := by
  simp [append, active, setSegment, hf]

/-- So are they after an append that succeeds. -/
theorem mem_active_attempt {write : FrameWrite} (hok : (s.attempt write batch).1 = true)
    (hf : f ∈ batch) : f ∈ (s.attempt write batch).2.active.frames := by
  unfold attempt at hok ⊢
  split
  case isTrue hpoisoned => simp [hpoisoned] at hok
  case isFalse hpoisoned =>
    cases write with
    | ok => exact mem_active_append hf
    | rejected | fails kept => simp [hpoisoned] at hok

/-! ## The frames as one log -/

/-- The frames of the sink: the sealed segments, then the active one. -/
theorem frames_eq (s : FrameSink F) :
    s.frames = ((range s.activeSeq).flatMap fun i => (s.segments i).frames) ++
      s.active.frames := by
  simp [frames, range_succ, active]

/-- Writing to the active segment extends the log at its end. -/
theorem frames_setActive (s : FrameSink F) (seg : FrameSegment F) (batch : List F)
    (hseg : seg.frames = s.active.frames ++ batch) :
    (s.setSegment s.activeSeq seg).frames = s.frames ++ batch := by
  have hbelow : ((range s.activeSeq).flatMap fun i =>
      ((s.setSegment s.activeSeq seg).segments i).frames) =
      (range s.activeSeq).flatMap fun i => (s.segments i).frames := by
    refine flatMap_congr fun i hi => ?_
    have hne : i ≠ s.activeSeq := (mem_range.1 hi).ne
    simp [setSegment, update_of_ne hne]
  rw [frames_eq, frames_eq s, append_assoc, ← hseg]
  exact congrArg₂ (· ++ ·) hbelow (by simp [active, setSegment])

/-- An append adds the batch at the end. -/
theorem frames_append (s : FrameSink F) (batch : List F) :
    (s.append batch).frames = s.frames ++ batch :=
  frames_setActive s _ batch rfl

/-- Rotation leaves the log as it is. -/
theorem frames_rotate (h : WF s) (synced : Bool) : (s.rotate synced).frames = s.frames := by
  rw [frames_eq]
  have hnext : (s.rotate synced).active.frames = [] := by
    simp [active, rotate, h.ahead (s.activeSeq + 1) (Nat.lt_succ_self _)]
  rw [hnext, append_nil]
  rfl

section

variable (s : FrameSink F) (seq : Nat) (seg : FrameSegment F)
  (hseg : seg.frames = (s.segments seq).frames)
include hseg

theorem segment_frames_setSegment (i : Nat) :
    ((s.setSegment seq seg).segments i).frames = (s.segments i).frames := by
  by_cases hi : i = seq
  · subst hi
    simp [setSegment, hseg]
  · simp [setSegment, update_of_ne hi]

/-- A segment with the same frames changes none. -/
theorem frames_setSegment : (s.setSegment seq seg).frames = s.frames :=
  flatMap_congr fun i _ => segment_frames_setSegment s seq seg hseg i

end

/-- A sync changes no frame. -/
@[simp] theorem frames_fsync (s : FrameSink F) (seq n : Nat) : (s.fsync seq n).frames = s.frames :=
  frames_setSegment s seq _ rfl

/-- Nor does poison. -/
@[simp] theorem frames_poison (s : FrameSink F) (seq : Nat) : (s.poison seq).frames = s.frames :=
  frames_setSegment s seq _ rfl

/-- **One attempt on the log**: a success adds the batch, a failure a part of it. -/
theorem frames_attempt (write : FrameWrite) (batch : List F) (s : FrameSink F) :
    ((s.attempt write batch).1 = true → (s.attempt write batch).2.frames = s.frames ++ batch) ∧
      ((s.attempt write batch).1 = false → ∃ kept ≤ write.kept,
        (s.attempt write batch).2.frames = s.frames ++ batch.take kept) := by
  unfold attempt
  split
  · exact ⟨by simp, fun _ => ⟨0, Nat.zero_le _, by simp⟩⟩
  · cases write with
    | ok => exact ⟨fun _ => frames_append s batch, by simp⟩
    | rejected => exact ⟨by simp, fun _ => ⟨0, Nat.zero_le _, by simp⟩⟩
    | fails kept =>
      exact ⟨by simp, fun _ => ⟨kept, le_rfl, frames_setActive s _ (batch.take kept) rfl⟩⟩

end FrameSink

end ShamirDb
