/-
# What a ticket's outcome says about the sink

An acknowledged call has every frame in the sink once, a failed one has none and never
will, and an abandoned window ends unknown in a group that no leader writes for any more.
The log is the settled windows in order, followed by leftovers of the one window whose
write was never published.

One step of the code breaks the first part: `append_batch` retries a failed first write in
a new segment, and when the rollback of the first write fails too, the complete frames it
left behind are replayed a second time.
-/
import Mathlib.Data.List.Nodup
import ShamirDb.GroupProgress
import ShamirDb.WalEntryCodec

namespace ShamirDb

open Machine List FrameSink Option

namespace WalGroup

variable {s : WalGroup} {sink : FrameSink WalFrame} {guard : LeaderGuard} {f : WalFrame}

/-! ## The log -/

/-- The leftovers of the window in hand: none before its write, all of it after. -/
def LogStage (stage : Option LeadStage) (leftover window : List WalFrame) : Prop :=
  match stage with
  | some .entering | some .first | some .checking | some .rotating | some .retrying =>
    leftover = []
  | some .sealing | some .swapping => leftover = window
  | _ => True

/-- The log is the settled windows and leftovers of the window in hand. -/
def Exact (s : WalGroup) : Prop :=
  ∃ leftover, s.sink.frames = windowFrames s.settled.flatten ++ leftover ∧
    (∀ f ∈ leftover, f ∈ windowFrames s.hand) ∧
    LogStage s.stage? leftover (windowFrames s.hand)

/-- A failed first write of `append_batch` leaves no complete frame behind. -/
def NoLeftover (s : WalGroup) (e : Event) : Prop :=
  match e, s.stage? with
  | .append write _ _, some .first => write.kept = 0
  | _, _ => True

instance (s : WalGroup) (e : Event) : Decidable (NoLeftover s e) := by
  unfold NoLeftover
  split <;> infer_instance

/-- The window in hand is settled, and the log has its frames. -/
theorem exact_publish (hlog : sink.frames = windowFrames s.settled.flatten ++ windowFrames s.hand)
    (guard : LeaderGuard) : (({ s with sink } : WalGroup).publish guard).Exact := by
  refine ⟨[], ?_, nofun, ?_⟩
  · simpa [WalGroup.publish, windowFrames] using hlog
  · simp only [WalGroup.publish]
    split <;> trivial

/-- The window is rejected; at most a part of it is left in the log. -/
theorem exact_reject {leftover : List WalFrame}
    (hlog : sink.frames = windowFrames s.settled.flatten ++ leftover)
    (hleft : ∀ f ∈ leftover, f ∈ windowFrames s.hand) (hmem : s.mem = true → leftover = [])
    (guard : LeaderGuard) : (({ s with sink } : WalGroup).reject guard).Exact := by
  unfold WalGroup.reject
  split
  case isTrue h =>
    refine ⟨leftover, hlog, ?_, trivial⟩
    rw [hmem h]
    nofun
  case isFalse => exact ⟨leftover, hlog, hleft, trivial⟩

/-- What an attempt to write the window leaves. -/
theorem frames_attempt_hand (write : FrameWrite) :
    ((s.sink.attempt write (windowFrames s.hand)).1 = true →
      (s.sink.attempt write (windowFrames s.hand)).2.frames = s.sink.frames ++ windowFrames s.hand) ∧
    ((s.sink.attempt write (windowFrames s.hand)).1 = false →
      ∃ leftover, (s.sink.attempt write (windowFrames s.hand)).2.frames = s.sink.frames ++ leftover ∧
        (∀ f ∈ leftover, f ∈ windowFrames s.hand) ∧ (write.kept = 0 → leftover = [])) := by
  obtain ⟨hok, hfail⟩ := frames_attempt write (windowFrames s.hand) s.sink
  refine ⟨hok, fun h => ?_⟩
  obtain ⟨kept, hkept, hframes⟩ := hfail h
  refine ⟨_, hframes, fun f hf => mem_of_mem_take hf, fun hzero => ?_⟩
  rw [show kept = 0 by omega, take_zero]

/-- An append that leaves nothing over. -/
theorem exact_appendStep (hwf : s.sink.WF) (h : s.Exact) (hmem : s.mem = false)
    (hleader : s.leader = some guard) (write : FrameWrite) (full succeeds : Bool)
    (hclean : NoLeftover s (.append write full succeeds)) :
    (s.appendStep guard write full succeeds).Exact := by
  obtain ⟨leftover, hlog, hleft, hstage⟩ := h
  obtain ⟨hok, hfail⟩ := frames_attempt_hand write
  simp only [stage?, hleader, map_some] at hstage
  simp only [NoLeftover, stage?, hleader, map_some] at hclean
  have hreject : (s.reject guard).Exact := exact_reject hlog hleft (by simp [hmem]) guard
  have hrotate := frames_rotate hwf
  unfold WalGroup.appendStep
  cases hg : guard.stage
  case entering =>
    rw [hg] at hstage
    dsimp only
    split_ifs
    · exact ⟨leftover, (hrotate false).trans hlog, hleft, hstage⟩
    · exact hreject
    · exact ⟨leftover, hlog, hleft, hstage⟩
  case first =>
    rw [hg] at hstage hclean
    obtain rfl : leftover = [] := hstage
    rw [append_nil] at hlog
    dsimp only
    split_ifs with hres
    · exact ⟨windowFrames s.hand, (hok hres).trans (congrArg (· ++ _) hlog), fun _ => id, rfl⟩
    · exact exact_publish ((hok hres).trans (congrArg (· ++ _) hlog)) guard
    · -- the failed first write: nothing is left behind
      obtain ⟨leftover, hframes, hleft, hnone⟩ := hfail (by simpa using hres)
      exact ⟨leftover, hframes.trans (congrArg (· ++ _) hlog), hleft, hnone hclean⟩
  case checking =>
    rw [hg] at hstage
    dsimp only
    split_ifs
    · exact ⟨leftover, hlog, hleft, hstage⟩
    · exact hreject
  case rotating =>
    rw [hg] at hstage
    dsimp only
    split_ifs
    · exact ⟨leftover, (hrotate false).trans hlog, hleft, hstage⟩
    · exact hreject
  case retrying =>
    rw [hg] at hstage
    obtain rfl : leftover = [] := hstage
    rw [append_nil] at hlog
    dsimp only
    split_ifs with hres
    · exact exact_publish ((hok hres).trans (congrArg (· ++ _) hlog)) guard
    · obtain ⟨leftover, hframes, hleft, -⟩ := hfail (by simpa using hres)
      exact exact_reject (hframes.trans (congrArg (· ++ _) hlog)) hleft (by simp [hmem]) guard
  case sealing =>
    rw [hg] at hstage
    dsimp only
    split_ifs
    · exact ⟨leftover, hlog, hleft, by simpa [stage?, hleader, hg] using hstage⟩
    · exact ⟨leftover, (frames_fsync _ _ _).trans hlog, hleft, hstage⟩
    · exact exact_reject ((frames_poison _ _).trans hlog) hleft (by simp [hmem]) guard
  case swapping =>
    rw [hg] at hstage
    obtain rfl : leftover = windowFrames s.hand := hstage
    dsimp only
    split_ifs
    · exact exact_publish ((hrotate true).trans hlog) guard
    · exact hreject
  all_goals exact ⟨leftover, hlog, hleft, by simpa [stage?, hleader] using hstage⟩

/-- A step that touches neither the log nor the window keeps the log exact, if the stage
it goes to asks for nothing. -/
theorem Exact.idle {s' : WalGroup} (h : s.Exact) (hframes : s'.sink.frames = s.sink.frames)
    (hsame : (s'.settled, s'.hand) = (s.settled, s.hand))
    (hstage : ∀ leftover window, LogStage s.stage? leftover window →
      LogStage s'.stage? leftover window) : s'.Exact := by
  obtain ⟨leftover, hlog, hleft, hst⟩ := h
  simp only [Prod.mk.injEq] at hsame
  obtain ⟨hsettled, hhand⟩ := hsame
  refine ⟨leftover, ?_, ?_, ?_⟩
  · rw [hframes, hsettled, hlog]
  · rwa [hhand]
  · rw [hhand]
    exact hstage _ _ hst

section

variable (hs : Secured s) (h : s.Exact)
include hs h

/-- A step of a leader that leaves nothing over. -/
theorem exact_leaderStep (hleader : s.leader = some guard) (e : Event) (hclean : NoLeftover s e) :
    (s.leaderStep guard e).Exact := by
  have hwf := hs.barrier.wf
  unfold WalGroup.leaderStep
  split
  case h_1 =>
    split
    case isTrue hg =>
      unfold WalGroup.lead
      split_ifs with hempty hmany
      · exact h.idle rfl rfl fun _ _ _ => trivial
      · exact h.idle rfl rfl fun _ _ _ => trivial
      -- the hand of a leader that looks at the queue is empty
      have hstage := hs.shape.stage
      simp only [StageOk, stage?, hleader, map_some, hg] at hstage
      have hhand := (hstage (by simpa using (not_or.1 hempty).1)).1
      obtain ⟨leftover, hlog, hleft, -⟩ := h
      have hnil : leftover = [] := by
        refine eq_nil_iff_forall_not_mem.2 fun f hf => ?_
        have hmem := hleft f hf
        simp [hhand, windowFrames] at hmem
      subst hnil
      exact ⟨[], hlog, (by simp), rfl⟩
    case isFalse => exact h
  case h_2 =>
    split
    case isTrue hmem =>
      unfold WalGroup.memAppend
      split
      case h_1 hg =>
        obtain ⟨leftover, hlog, hleft, hstage⟩ := h
        simp only [stage?, hleader, map_some, hg] at hstage
        obtain rfl : leftover = [] := hstage
        split
        · refine exact_publish ?_ guard
          rw [FrameSink.frames_append, hlog, append_nil]
        · exact exact_reject hlog (by simp) (fun _ => rfl) guard
      case h_2 => exact h
    case isFalse hmem =>
      exact exact_appendStep hwf h (by simpa using hmem) hleader _ _ _ hclean
  case h_3 =>
    have hfinish : ∀ (sink : FrameSink WalFrame) (window : List WalRequest) (ok : Bool),
        sink.frames = s.sink.frames →
        (({ s with sink } : WalGroup).finishSync guard window ok).Exact := by
      intro sink window ok hframes
      refine h.idle hframes rfl fun _ _ _ => ?_
      cases ok <;> trivial
    unfold WalGroup.syncStep
    split
    · split_ifs
      · exact hfinish _ _ true (frames_fsync _ _ _)
      · exact hfinish s.sink _ false rfl
      · exact h.idle rfl rfl fun _ _ _ => trivial
    · split_ifs
      · exact hfinish s.sink _ true rfl
      · exact hfinish s.sink _ false rfl
      · exact h
    · exact h
  case h_4 =>
    split
    · exact h.idle rfl rfl fun _ _ _ => trivial
    · exact h
  case h_5 =>
    unfold WalGroup.dropGuard
    cases guard.stage
    case abandoning | stopping | releasing => exact h
    all_goals exact h.idle rfl rfl fun _ _ _ => trivial
  case h_6 =>
    unfold WalGroup.dropStep
    cases guard.stage
    case abandoning metas | stopping | releasing => exact h.idle rfl rfl fun _ _ _ => trivial
    all_goals exact h
  case h_7 => exact h

/-- The blocking write of an abandoned window adds leftovers of that window only. -/
theorem exact_land (write : FrameWrite) : (s.land write).Exact := by
  unfold WalGroup.land
  split
  case isFalse => exact h
  case isTrue hdet =>
    obtain ⟨leftover, hlog, hleft, -⟩ := h
    obtain ⟨more, hmore, hin⟩ : ∃ more, (s.sink.attempt write (windowFrames s.hand)).2.frames =
        s.sink.frames ++ more ∧ ∀ f ∈ more, f ∈ windowFrames s.hand := by
      obtain ⟨hok, hfail⟩ := frames_attempt_hand write
      cases hres : (s.sink.attempt write (windowFrames s.hand)).1 with
      | true => exact ⟨_, hok hres, fun _ => id⟩
      | false =>
        obtain ⟨more, hmore, hin, -⟩ := hfail hres
        exact ⟨more, hmore, hin⟩
    refine ⟨leftover ++ more, ?_, ?_, ?_⟩
    · rw [← append_assoc, ← hlog]
      exact hmore
    · exact forall_mem_append.2 ⟨hleft, hin⟩
    · -- no leader is inside `append_batch` while a detached write is out
      have hok := hs.shape.stage
      have hno : ∀ stage, s.stage? = some stage → stage.inWrite = false := by
        intro stage hst
        cases stage <;> simp [StageOk, hst, hdet, LeadStage.inWrite] at hok ⊢
      show LogStage s.stage? _ _
      unfold LogStage
      split <;> first | trivial | (rename_i hst; cases hno _ hst)

/-- A step that leaves nothing over. -/
theorem exact_step (e : Event) (hclean : NoLeftover s e) : (s.step e).Exact := by
  have hfail : ∀ sink : FrameSink WalFrame, sink.frames = s.sink.frames →
      ({ s with sink } : WalGroup).roundFail.Exact := by
    intro sink hframes
    unfold WalGroup.roundFail
    split <;> exact h.idle hframes rfl fun _ _ hst => hst
  -- most steps touch neither the log nor the window
  cases e with ((simp only [WalGroup.step, WalGroup.appendTicketed, WalGroup.appendMany,
    WalGroup.driveAndWait, WalGroup.cancel, WalGroup.roundStart, WalGroup.roundCapture,
    WalGroup.roundFsync, WalGroup.roundSync, WalGroup.demand, WalGroup.demandStep]; repeat' split)
    <;> first | exact h | exact h.idle rfl rfl fun _ _ hst => hst | skip)
  | call t => exact h.idle rfl rfl fun _ _ _ => trivial
  | land write => exact exact_land hs h write
  | roundSync succeeds =>
    first
    | exact h.idle (frames_fsync _ _ _) rfl fun _ _ hst => hst
    | exact hfail s.sink rfl
    | exact hfail _ (frames_poison _ _)
  | roundFail => exact hfail s.sink rfl
  | _ => exact exact_leaderStep hs h ‹_› _ hclean

end

/-- The run lemma: the log stays exact while no first write leaves frames behind. -/
theorem exact_run (mem observer : Bool) {es : List Event}
    (hes : Along step NoLeftover (start mem observer) es) :
    (run step (start mem observer) es).Exact := by
  have hinv : Secured (run step (start mem observer) es) ∧ (run step (start mem observer) es).Exact :=
    along_invariant (I := fun s => Secured s ∧ s.Exact)
      (fun s e h hclean => ⟨h.1.step e, exact_step h.1 h.2 e hclean⟩)
      ⟨secured_run mem observer [], ⟨[], rfl, nofun, trivial⟩⟩ hes
  exact hinv.2

/-! ## Counting frames -/

/-- The frames of a request are different. -/
theorem frames_nodup (r : WalRequest) : r.frames.Nodup := by
  -- the index of a frame is its position
  have hindex : r.frames.map WalFrame.index = range r.entries.length := by
    refine ext_getElem (by simp [WalRequest.frames]) ?_
    simp [WalRequest.frames]
  refine List.Nodup.of_map WalFrame.index ?_
  rw [hindex]
  exact nodup_range

/-- So are those of a window. -/
theorem windowFrames_nodup {window : List WalRequest}
    (h : (window.map WalRequest.ticket).Nodup) : (windowFrames window).Nodup := by
  rw [windowFrames, nodup_flatMap]
  refine ⟨fun r _ => frames_nodup r, ?_⟩
  refine (pairwise_map.1 h).imp ?_
  intro r r' hne f hf hf'
  exact hne ((ticket_of_mem_frames hf).symm.trans (ticket_of_mem_frames hf'))

/-- A settled frame is in the log once. -/
theorem count_eq_one (h : Shape s) (hexact : s.Exact) {r : WalRequest} (hr : r ∈ s.settled.flatten)
    (hf : f ∈ r.frames) : s.sink.frames.count f = 1 := by
  obtain ⟨leftover, hlog, hleft, -⟩ := hexact
  have hnodup : (windowFrames s.settled.flatten).Nodup := by
    refine windowFrames_nodup (h.nodup.sublist ?_)
    rw [live, append_assoc]
    exact (sublist_append_left _ _).map _
  have hnot : f ∉ leftover := by
    intro hmem
    obtain ⟨r', hr', hf'⟩ := mem_windowFrames.1 (hleft f hmem)
    refine h.settled_ne_hand hr hr' ?_
    rw [← ticket_of_mem_frames hf, ticket_of_mem_frames hf']
  rw [hlog, count_append, count_eq_zero_of_not_mem hnot,
    count_eq_one_of_mem hnodup (mem_windowFrames.2 ⟨r, hr, hf⟩)]

/-- A failed one is not in the log. -/
theorem not_mem_of_failed (h : Shape s) (hexact : s.Exact) {t : Nat}
    (hfailed : s.tickets t = ⟨.failed, true⟩) (hf : f.ticket = t) : f ∉ s.sink.frames := by
  obtain ⟨leftover, hlog, hleft, -⟩ := hexact
  intro hmem
  rw [hlog, mem_append] at hmem
  rcases hmem with hmem | hmem
  · obtain ⟨r, hr, hfr⟩ := mem_windowFrames.1 hmem
    have hok := h.settled r hr
    rw [SettledOk, ← ticket_of_mem_frames hfr, hf, hfailed] at hok
    split at hok <;> simp at hok
  · obtain ⟨r, hr, hfr⟩ := mem_windowFrames.1 (hleft f hmem)
    have hheld := h.held r hr
    rw [← ticket_of_mem_frames hfr, hf, hfailed] at hheld
    split at hheld <;> cases hheld

/-! ## The outcomes -/

/-- The steps of a leader. -/
def Event.ofLeader : Event → Bool
  | .lead | .append _ _ _ | .sync _ | .drain | .dropGuard | .dropStep => true
  | _ => false

/-- Once a window is published as unknown, no leader is inside a write or a sync. -/
theorem sink_untouched (h : Shape s) (hpub : s.published = true) {e : Event}
    (he : e.ofLeader = true) : (s.step e).sink = s.sink := by
  cases hleader : s.leader with
  | none => cases e <;> simp_all [WalGroup.step, Event.ofLeader]
  | some guard =>
    have hin : guard.stage.inWrite = false := by
      by_contra hin
      rw [(h.inWrite hleader (by simpa using hin)).2.2.1] at hpub
      cases hpub
    have hnotSync : ∀ window, guard.stage ≠ .demanding window := by
      intro window hg
      rw [(h.inSync hleader (.inl hg)).2.2.2.2.2] at hpub
      cases hpub
    cases e with
    | lead =>
      simp only [WalGroup.step, hleader, WalGroup.leaderStep, WalGroup.lead]
      split_ifs <;> rfl
    | append write full succeeds =>
      simp only [WalGroup.step, WalGroup.leaderStep]
      cases hg : guard.stage <;>
        simp_all [LeadStage.inWrite, WalGroup.memAppend, WalGroup.appendStep]
    | sync succeeds =>
      simp only [WalGroup.step, hleader, WalGroup.leaderStep, WalGroup.syncStep]
      split
      case h_1 window hg => exact absurd hg (hnotSync window)
      case h_2 => split_ifs <;> rfl
      case h_3 => rfl
    | drain =>
      simp only [WalGroup.step, hleader, WalGroup.leaderStep]
      split <;> rfl
    | dropGuard =>
      simp only [WalGroup.step, hleader, WalGroup.leaderStep, WalGroup.dropGuard]
      cases guard.stage <;> rfl
    | dropStep =>
      simp only [WalGroup.step, hleader, WalGroup.leaderStep, WalGroup.dropStep]
      split <;> rfl
    | _ => cases he

/-- **Outcomes are sound.**  In every run in which no failed first write leaves a complete
frame behind, and at every later moment: the frames of an acknowledged call are in the sink
exactly once, and durable if the call asked for it; the frames of a failed call are not in
the sink; the calls of an abandoned window are unknown, unless they were acknowledged
before; and from then on no leader touches the sink. -/
theorem outcomes_sound (mem observer : Bool) (es es' : List Event)
    (hclean : Along step NoLeftover (start mem observer) (es ++ es')) :
    (∀ t r, (run step (start mem observer) es).requests t = some r →
      (run step (start mem observer) es).tickets t = ⟨.acked, true⟩ → ∀ f ∈ r.frames,
        (run step (start mem observer) (es ++ es')).sink.frames.count f = 1 ∧
        (r.durability = .synced → (run step (start mem observer) (es ++ es')).sink.Durable f)) ∧
    (∀ t r, (run step (start mem observer) es).requests t = some r →
      (run step (start mem observer) es).tickets t = ⟨.failed, true⟩ → ∀ f ∈ r.frames,
        f ∉ (run step (start mem observer) (es ++ es')).sink.frames) ∧
    (∀ w ∈ (run step (start mem observer) es).abandoned, ∀ r ∈ w,
      (run step (start mem observer) (es ++ es')).tickets r.ticket = ⟨.unknown, true⟩ ∨
      (run step (start mem observer) (es ++ es')).tickets r.ticket = ⟨.acked, true⟩) ∧
    ((run step (start mem observer) es).abandoned ≠ [] → ∀ e : Event, e.ofLeader = true →
      (step (run step (start mem observer) (es ++ es')) e).sink =
        (run step (start mem observer) (es ++ es')).sink) := by
  have hs := secured_run mem observer es
  have hs' := secured_run mem observer (es ++ es')
  have hexact := exact_run mem observer hclean
  have hprogress := progress_run hs es'
  rw [← run_append] at hprogress
  refine ⟨?_, ?_, ?_, ?_⟩
  · intro t r hr hacked f hf
    -- the acknowledged request is settled, and stays acknowledged
    obtain ⟨r', hr', hticket⟩ := hs.shape.acked t (by rw [hacked])
    obtain rfl : r = r' := by
      have hknown := hs.shape.known r' (mem_live_settled hr')
      rw [hticket, hr] at hknown
      exact some.inj hknown
    have hsettled : r ∈ (run step (start mem observer) (es ++ es')).settled.flatten := by
      obtain ⟨w, hw, hrw⟩ := mem_flatten.1 hr'
      exact mem_flatten.2 ⟨w, hprogress.settled.subset hw, hrw⟩
    refine ⟨count_eq_one hs'.shape hexact hsettled hf, fun hsync => ?_⟩
    have hfirst := progress_run (secured_run mem observer []) es
    rcases hfirst.synced r hr' hsync (hticket ▸ hacked) with ⟨hnone, -⟩ | hdur
    · cases hnone
    · exact hprogress.sink.grows.durable (hdur f hf)
  · intro t r hr hfailed f hf
    have hlater := hprogress.tickets t (by rw [hfailed])
    rw [hfailed] at hlater
    refine not_mem_of_failed hs'.shape hexact hlater ?_
    rw [ticket_of_mem_frames hf, (hs.shape.named t r hr).1]
  · intro w hw r hr
    rw [hprogress.tickets r.ticket (hs.shape.abandoned_done hw hr)]
    exact hs.shape.abandoned w hw r hr
  · intro hne e he
    refine sink_untouched hs'.shape (hs'.shape.stopped fun hnil => hne ?_) he
    exact prefix_nil.1 (hnil ▸ hprogress.abandoned)

/-! ## A retried window -/

/-- The first write of a window fails and leaves `kept` frames in the segment; the poisoned
segment is rotated out, and the retry succeeds on the next one. -/
def retriedWindow (kept : Nat) : List Event :=
  leads 0 (WalEntryV2.sample 1) 1 ++ [.append .ok false true, .append (.fails kept) false true,
    .append .ok false true, .append .ok false true, .append .ok false true]

/-- With a clean rollback the frame is there once. -/
theorem outcomes_sound_retried :
    (run step (start false false) (retriedWindow 0)).tickets 0 = ⟨.acked, true⟩ ∧
      (run step (start false false) (retriedWindow 0 ++ [.lead])).sink.frames.count
        ⟨0, 0, WalEntryV2.sample 1, 1⟩ = 1 := by
  have hacked : (run step (start false false) (retriedWindow 0)).tickets 0 = ⟨.acked, true⟩ := by
    decide +kernel
  have hsound := outcomes_sound false false (retriedWindow 0) [.lead] (by decide +kernel)
  exact ⟨hacked, (hsound.1 0 ⟨0, [(WalEntryV2.sample 1, 1)], .buffered⟩ (by decide +kernel) hacked
    ⟨0, 0, WalEntryV2.sample 1, 1⟩ (by decide +kernel)).1⟩

/-- When the rollback fails, the call is acknowledged and its frame is in the sink twice. -/
theorem acked_frame_twice :
    (run step (start false false) (retriedWindow 1)).tickets 0 = ⟨.acked, true⟩ ∧
      (run step (start false false) (retriedWindow 1)).sink.frames.count
        ⟨0, 0, WalEntryV2.sample 1, 1⟩ = 2 := by
  decide +kernel

end WalGroup

end ShamirDb
