/-
# What one step of the group does

The relation between the group before and after a step that every result about whole runs
is derived from: windows stay settled, a completed ticket keeps its outcome, a call keeps
its request, demands keep what they were issued at, the sink only moves on, and a call that
asked for a sync is acknowledged only when its frames are durable.  The floor of the sync
barrier moves only with a rotation that loses sight of unsynced frames.
-/
import ShamirDb.SyncBarrier

namespace ShamirDb

open Machine List Function

namespace WalGroup

variable {s s' : WalGroup}

/-- The event rotates out a poisoned segment that holds unsynced frames of complete
windows, and there is no observer to have it synced later. -/
def losesSight (s : WalGroup) (e : Event) : Bool :=
  match e, s.stage? with
  | .append _ _ true, some .entering =>
    !s.mem && s.sink.active.poisoned && s.activeUnsynced && !s.observer
  | .append _ _ true, some .rotating => !s.mem && s.activeUnsynced && !s.observer
  | _, _ => false

structure Progress (lost : Bool) (s s' : WalGroup) : Prop where
  settled : s.settled <+: s'.settled
  tickets : ∀ t, (s.tickets t).done = true → s'.tickets t = s.tickets t
  requests : ∀ t r, s.requests t = some r → s'.requests t = some r
  abandoned : s.abandoned <+: s'.abandoned
  issued : s.sync.demands.map SyncDemand.issued <+: s'.sync.demands.map SyncDemand.issued
  sink : s.sink.Leads s'.sink
  synced : ∀ r ∈ s'.settled.flatten, r.durability = .synced →
    s'.tickets r.ticket = ⟨.acked, true⟩ →
    r ∈ s.settled.flatten ∧ s.tickets r.ticket = ⟨.acked, true⟩ ∨
      ∀ f ∈ r.frames, s'.sink.Durable f
  floor : lost = false → s'.floor = s.floor

namespace Progress

variable {lost : Bool}

/-- Nothing happens. -/
theorem refl (h : s.sink.WF) : Progress lost s s :=
  ⟨prefix_rfl, fun _ _ => rfl, fun _ _ hr => hr, prefix_rfl, prefix_rfl, .refl h,
    fun _ hr _ ht => .inl ⟨hr, ht⟩, fun _ => rfl⟩

/-- Steps compose. -/
theorem trans {s'' : WalGroup} (h : Progress lost s s') (h' : Progress lost s' s'') :
    Progress lost s s'' := by
  refine ⟨h.settled.trans h'.settled, fun t ht => ?_, fun t r hr => h'.requests t r (h.requests t r hr),
    h.abandoned.trans h'.abandoned, h.issued.trans h'.issued, h.sink.trans h'.sink, ?_, fun hl => (h'.floor hl).trans (h.floor hl)⟩
  · have hsame := h.tickets t ht
    rw [h'.tickets t (hsame ▸ ht), hsame]
  intro r hr hsync ht
  rcases h'.synced r hr hsync ht with ⟨hr', ht'⟩ | hdur
  · rcases h.synced r hr' hsync ht' with hbefore | hdur
    · exact .inl hbefore
    · exact .inr fun f hf => h'.sink.grows.durable (hdur f hf)
  · exact .inr hdur

/-- Nothing is acknowledged and no window settles: tickets stay, or are completed
otherwise. -/
theorem retire (hsettled : s'.settled = s.settled)
    (htickets : ∀ t, s'.tickets t = s.tickets t ∨
      ∃ state ≠ WalTicketState.acked, s'.tickets t = (s.tickets t).complete state)
    (hrequests : ∀ t r, s.requests t = some r → s'.requests t = some r)
    (habandoned : s.abandoned <+: s'.abandoned)
    (hdemands : s'.sync.demands = s.sync.demands) (hsink : s.sink.Leads s'.sink)
    (hfloor : lost = false → s'.floor = s.floor) : Progress lost s s' := by
  refine ⟨hsettled ▸ prefix_rfl, fun t ht => ?_, hrequests, habandoned,
    hdemands ▸ prefix_rfl, hsink, ?_, hfloor⟩
  · rcases htickets t with hsame | ⟨state, -, hstate⟩
    · exact hsame
    · rw [hstate, complete_of_done ht]
  intro r hr _ ht
  rw [hsettled] at hr
  rcases htickets r.ticket with hsame | ⟨state, hne, hstate⟩
  · exact .inl ⟨hr, hsame ▸ ht⟩
  cases hdone : (s.tickets r.ticket).done with
  | true => exact .inl ⟨hr, by rw [← ht, hstate, complete_of_done hdone]⟩
  | false =>
    rw [hstate, complete_of_not_done hdone] at ht
    cases ht
    exact absurd rfl hne

/-- Only the sink moves on. -/
theorem move (hsink : s.sink.Leads s'.sink)
    (hsame : (s'.settled, s'.tickets, s'.requests, s'.abandoned, s'.sync.demands, s'.floor) =
      (s.settled, s.tickets, s.requests, s.abandoned, s.sync.demands, s.floor)) :
    Progress lost s s' := by
  simp only [Prod.mk.injEq] at hsame
  obtain ⟨hsettled, htickets, hrequests, habandoned, hdemands, hfloor⟩ := hsame
  exact retire hsettled (fun t => .inl (by rw [htickets])) (fun t r hr => by rw [hrequests, hr])
    (habandoned ▸ prefix_rfl) hdemands hsink fun _ => hfloor

/-- Tickets are completed, but not acknowledged. -/
theorem complete (hsink : s.sink.Leads s'.sink) {ws : List WalRequest} (state : WalTicketState)
    (hstate : state ≠ .acked) (habandoned : s.abandoned <+: s'.abandoned)
    (hsame : (s'.settled, s'.tickets, s'.requests, s'.sync.demands, s'.floor) =
      (s.settled, mark ws (WalTicket.complete state) s.tickets, s.requests, s.sync.demands,
        s.floor)) : Progress lost s s' := by
  simp only [Prod.mk.injEq] at hsame
  obtain ⟨hsettled, htickets, hrequests, hdemands, hfloor⟩ := hsame
  refine retire hsettled (fun t => ?_) (fun t r hr => by rw [hrequests, hr]) habandoned hdemands
    hsink fun _ => hfloor
  rw [htickets, mark]
  split
  · exact .inr ⟨state, hstate, rfl⟩
  · exact .inl rfl

end Progress

/-! ## Callers -/

variable {lost : Bool} {guard : LeaderGuard} {sink : FrameSink WalFrame} {window : List WalRequest}

/-- A request is submitted. -/
theorem progress_submit (h : Shape s) (hwf : s.sink.WF) (entries : List (Bytes × UInt64))
    (durability : WalDurability) : Progress lost s (s.submit entries durability) := by
  refine .retire rfl (fun _ => .inl rfl) (fun t r hr => ?_) prefix_rfl rfl (.refl hwf) fun _ => rfl
  exact (update_of_ne (h.named t r hr).2.ne _ _).trans hr

/-- One ticket fails. -/
theorem progress_failed {t : Nat} (hwf : s.sink.WF)
    (htickets : s'.tickets = update s.tickets t ((s.tickets t).complete .failed))
    (hrequests : ∀ t r, s.requests t = some r → s'.requests t = some r)
    (hsame : (s'.settled, s'.abandoned, s'.sync.demands, s'.floor, s'.sink) =
      (s.settled, s.abandoned, s.sync.demands, s.floor, s.sink)) : Progress lost s s' := by
  simp only [Prod.mk.injEq] at hsame
  obtain ⟨hsettled, habandoned, hdemands, hfloor, hsink⟩ := hsame
  have hleads : s.sink.Leads s'.sink := by
    rw [hsink]
    exact .refl hwf
  refine .retire hsettled (fun u => ?_) hrequests (habandoned ▸ prefix_rfl) hdemands hleads
    fun _ => hfloor
  rw [htickets]
  by_cases hut : u = t
  · subst hut
    rw [update_self]
    exact .inr ⟨.failed, nofun, rfl⟩
  · rw [update_of_ne hut]
    exact .inl rfl

/-- A call looks for the lead. -/
theorem progress_driveAndWait (hwf : s.sink.WF) (t : Nat) : Progress lost s (s.driveAndWait t) := by
  unfold WalGroup.driveAndWait
  repeat' split
  all_goals first
    | exact .move (.refl hwf) rfl
    | exact progress_failed hwf rfl (fun _ _ hr => hr) rfl

/-! ## The leader -/

/-- The publication of a window, after a change of the sink: no call that asked for a sync
is acknowledged by it. -/
theorem progress_publish (h : Shape s) (hleader : s.leader = some guard)
    (hin : guard.stage.inWrite = true) (hsink : s.sink.Leads sink) :
    Progress lost s (({ s with sink } : WalGroup).publish guard) := by
  have hwritten : ∀ t, (∀ r ∈ s.hand, r.ticket ≠ t) →
      (({ s with sink } : WalGroup).publish guard).tickets t = s.tickets t := by
    intro t hout
    show mark _ (WalTicket.complete .acked) (mark s.hand WalTicket.written s.tickets) t = _
    rw [mark_of_not_mem (fun r hr => hout r (mem_of_mem_filter hr)), mark_of_not_mem hout]
  refine ⟨prefix_append _ _, fun t ht => hwritten t ?_, fun _ _ hr => hr, prefix_rfl,
    prefix_rfl, hsink, ?_, fun _ => rfl⟩
  · -- the tickets in the leader's hand are new
    rintro r hr rfl
    rw [h.held_new hleader hin hr] at ht
    cases ht
  intro r hr hsync ht
  have hr' : r ∈ s.settled.flatten ∨ r ∈ s.hand := by
    have hflat : r ∈ (s.settled ++ [s.hand]).flatten := hr
    simpa [flatten_append] using hflat
  rcases hr' with hold | hnew
  · rw [hwritten r.ticket fun r' hr' => (h.settled_ne_hand hold hr').symm] at ht
    exact .inl ⟨hold, ht⟩
  -- a synced call of the window waits for its fsync
  have hany : s.hand.any (fun r => r.durability = .synced) = true :=
    any_eq_true.2 ⟨r, hnew, by simp [hsync]⟩
  have hshape := (h.environment sink s.sync s.floor).publish hleader hin
  have hstage := hshape.stage
  simp only [WalGroup.publish, hany] at hstage
  have hwait : (⟨.acked, true⟩ : WalTicket) = ⟨.written, false⟩ :=
    ht.symm.trans ((hstage.2.2.2 r hnew).2 hsync)
  cases hwait

/-- The window in hand is rejected. -/
theorem progress_reject (guard : LeaderGuard) (hsink : s.sink.Leads sink) :
    Progress lost s (({ s with sink } : WalGroup).reject guard) := by
  unfold WalGroup.reject
  split
  · exact .complete hsink .failed nofun prefix_rfl rfl
  · exact .move hsink rfl

section

variable (h : Shape s) (hwf : s.sink.WF) (hleader : s.leader = some guard)
include h hwf hleader

/-- An append. -/
theorem progress_appendStep (hmem : s.mem = false) (write : FrameWrite) (full succeeds : Bool) :
    Progress (s.losesSight (.append write full succeeds)) s
      (s.appendStep guard write full succeeds) := by
  -- without unsynced frames or with an observer the floor stays
  have hrot : s.losesSight (.append write full succeeds) = (s.activeUnsynced && !s.observer) →
      ∀ stage, Progress (s.losesSight (.append write full succeeds)) s
        (s.rotatePoisoned.setStage guard stage) := by
    intro hlose stage
    refine .retire rfl (fun _ => .inl rfl) (fun _ _ hr => hr) prefix_rfl rfl
      (hwf.leads_rotate false) ?_
    intro hsight
    rw [hlose] at hsight
    show (if s.activeUnsynced && !s.observer then _ else _) = _
    rw [hsight]
    rfl
  have hwrote := hwf.leads_attempt write (windowFrames s.hand)
  have hstay : Progress (s.losesSight (.append write full succeeds)) s (s.reject guard) :=
    progress_reject guard (.refl hwf)
  unfold WalGroup.appendStep
  cases hg : guard.stage
  case entering =>
    dsimp only
    split_ifs with hpoisoned hsucceeds
    · exact hrot (by simp [losesSight, stage?, hleader, hg, hmem, hpoisoned, hsucceeds]) _
    · exact hstay
    · exact .move (.refl hwf) rfl
  case rotating =>
    dsimp only
    split_ifs with hsucceeds
    · exact hrot (by simp [losesSight, stage?, hleader, hg, hmem, hsucceeds]) _
    · exact hstay
  case first =>
    dsimp only
    split_ifs
    · exact .move hwrote rfl
    · exact progress_publish h hleader (by rw [hg]; rfl) hwrote
    · exact .move hwrote rfl
  case checking =>
    dsimp only
    split_ifs
    · exact .move (.refl hwf) rfl
    · exact hstay
  case retrying =>
    dsimp only
    split_ifs
    · exact progress_publish h hleader (by rw [hg]; rfl) hwrote
    · exact progress_reject guard hwrote
  case sealing =>
    dsimp only
    split_ifs
    · exact .refl hwf
    · exact .move (hwf.leads_fsync le_rfl le_rfl) rfl
    · exact progress_reject guard (hwf.leads_poison le_rfl)
  case swapping =>
    dsimp only
    split_ifs
    · exact progress_publish h hleader (by rw [hg]; rfl) (hwf.leads_rotate true)
    · exact hstay
  all_goals exact .refl hwf

/-- An append in memory. -/
theorem progress_memAppend (succeeds : Bool) : Progress lost s (s.memAppend guard succeeds) := by
  unfold WalGroup.memAppend
  split
  case h_1 hg =>
    split
    · exact progress_publish h hleader (by rw [hg]; rfl) (hwf.leads_append _)
    · exact progress_reject guard (.refl hwf)
  case h_2 => exact .refl hwf

end

/-- The end of a window's fsync: its synced calls are acknowledged if the frames of the
window are durable. -/
theorem progress_finishSync (hsink : s.sink.Leads sink) (guard : LeaderGuard) (ok : Bool)
    (hlive : ∀ r ∈ s.settled.flatten, ∀ r' ∈ window, r.ticket = r'.ticket → r = r')
    (hdur : ok = true → ∀ f ∈ windowFrames window, sink.Durable f) :
    Progress lost s (({ s with sink } : WalGroup).finishSync guard window ok) := by
  cases ok with
  | false => exact .complete hsink .written nofun prefix_rfl rfl
  | true =>
    refine ⟨prefix_rfl, fun t ht => mark_complete_of_done ht _ _, fun _ _ hr => hr,
      prefix_rfl, prefix_rfl, hsink, ?_, fun _ => rfl⟩
    intro r hr hsync ht
    by_cases hin : ∃ r' ∈ window, r'.ticket = r.ticket
    · obtain ⟨r', hr', hticket⟩ := hin
      rw [hlive r hr r' hr' hticket.symm]
      exact .inr fun f hf => hdur rfl f (mem_windowFrames.2 ⟨r', hr', hf⟩)
    · refine .inl ⟨hr, ?_⟩
      rw [← ht]
      refine (mark_of_not_mem (fun r' hr' hticket => hin ⟨r', ?_, hticket⟩) _ _).symm
      exact mem_of_mem_filter hr'

/-- The frames of the last window are owed. -/
theorem owed_of_getLast (hlast : s.settled.getLast? = some window)
    (hfloor : s.floor < s.settled.length) {f : WalFrame} (hf : f ∈ windowFrames window) :
    f ∈ s.owed s.settled.length := by
  refine mem_owed.2 ⟨window, ?_, hf⟩
  obtain ⟨front, hfront⟩ := getLast?_eq_some_iff.1 hlast
  have hle : s.floor ≤ front.length := by
    rw [hfront, length_append, length_singleton] at hfloor
    omega
  rw [take_length, hfront, drop_append_of_le_length hle]
  exact mem_append_right _ mem_cons_self

section

variable (h : Shape s) (hb : Barrier s) (hst : s.StageStored) (hleader : s.leader = some guard)
include h hb hst hleader

/-- The leader's sync ends. -/
theorem progress_syncStep (succeeds : Bool) : Progress lost s (s.syncStep guard succeeds) := by
  have hlive : ∀ window, s.Waits window →
      ∀ r ∈ s.settled.flatten, ∀ r' ∈ window, r.ticket = r'.ticket → r = r' := by
    intro window hwaits r hr r' hr' hticket
    exact h.eq_of_ticket (mem_live_settled hr) (mem_live_settled (hwaits r' hr').1) hticket
  unfold WalGroup.syncStep
  split
  case h_1 window hg =>
    obtain ⟨-, -, -, hwaits, -⟩ := h.inSync hleader (.inl hg)
    simp only [StageStored, stage?, hleader, Option.map_some, hg] at hst
    split
    case isTrue hmem =>
      split
      · refine progress_finishSync (hb.wf.leads_fsync le_rfl le_rfl) guard true
          (hlive window hwaits) fun _ f hf => ?_
        -- a memory sink has one segment
        rcases hb.anchored f (owed_of_getLast hst.1 hst.2 hf) with hdur | hact | ⟨-, i, hi, -⟩
        · exact (hb.wf.leads_fsync le_rfl le_rfl).grows.durable hdur
        · exact FrameSink.durable_fsync (by rwa [take_length])
        · rw [hb.memory hmem] at hi
          cases hi
      · exact progress_finishSync (.refl hb.wf) guard false (hlive window hwaits) (by simp)
    case isFalse => exact .move (.refl hb.wf) rfl
  case h_2 window epoch target hg =>
    obtain ⟨-, -, -, hwaits, -⟩ := h.inSync hleader (.inr ⟨epoch, target, hg⟩)
    simp only [StageStored, stage?, hleader, Option.map_some, hg] at hst
    obtain ⟨hlast, hfloor, rfl⟩ := hst
    split
    case isTrue hcov =>
      refine progress_finishSync (.refl hb.wf) guard true (hlive window hwaits) fun _ f hf => ?_
      simp only [SyncCoordinator.covers, Bool.and_eq_true, decide_eq_true_eq] at hcov
      exact hb.success.2 f (owed_mono hcov.2 (owed_of_getLast hlast hfloor hf))
    case isFalse =>
      split
      · exact progress_finishSync (.refl hb.wf) guard false (hlive window hwaits) (by simp)
      · exact .refl hb.wf
  case h_3 => exact .refl hb.wf

/-- Every step of a leader. -/
theorem progress_leaderStep (e : Event) : Progress (s.losesSight e) s (s.leaderStep guard e) := by
  have hwf := hb.wf
  unfold WalGroup.leaderStep
  split
  case h_1 =>
    split
    · unfold WalGroup.lead
      split_ifs <;> exact .move (.refl hwf) rfl
    · exact .refl hwf
  case h_2 =>
    split
    case isTrue => exact progress_memAppend h hwf hleader _
    case isFalse hmem => exact progress_appendStep h hwf hleader (by simpa using hmem) _ _ _
  case h_3 => exact progress_syncStep h hb hst hleader _
  case h_4 =>
    split
    · exact .complete (.refl hwf) .failed nofun prefix_rfl rfl
    · exact .refl hwf
  case h_5 =>
    unfold WalGroup.dropGuard
    cases guard.stage <;> exact .move (.refl hwf) rfl
  case h_6 =>
    unfold WalGroup.dropStep
    cases guard.stage
    case abandoning metas => exact .complete (.refl hwf) .unknown nofun (prefix_append _ _) rfl
    all_goals exact .move (.refl hwf) rfl
  case h_7 => exact .refl hwf

end

/-! ## The worker and the demands -/

/-- A round of the coordinator ends. -/
theorem progress_roundSync (h : Barrier s) (succeeds : Bool) :
    Progress lost s (s.roundSync succeeds) := by
  have hfail : ∀ sink, s.sink.Leads sink →
      Progress lost s ({ s with sink } : WalGroup).roundFail := by
    intro sink hsink
    unfold WalGroup.roundFail
    split <;> exact .move hsink rfl
  unfold WalGroup.roundSync
  split
  case h_1 target seq n hround =>
    have hok := h.round _ hround
    have hseq := (hok.files_le _ rfl).1 seq mem_cons_self
    split
    · exact .move (h.wf.leads_fsync hseq (hok.running seq [] n rfl rfl).1) rfl
    · refine hfail _ ?_
      split
      · exact .refl h.wf
      · exact h.wf.leads_poison hseq
  case h_2 target seq files n hne hround =>
    have hok := h.round _ hround
    have hseq := (hok.files_le _ rfl).1 seq mem_cons_self
    split
    · exact .move ((h.wf.leads_fsync hseq (hok.running seq files n rfl rfl).1).markSynced seq) rfl
    · exact hfail s.sink (.refl h.wf)
  case h_3 => exact .refl h.wf

/-- A demand is answered. -/
theorem progress_demandStep (hwf : s.sink.WF) (i : Nat) : Progress lost s (s.demandStep i) := by
  have hset : ∀ d d', s.sync.demands[i]? = some d → d'.issued = d.issued →
      Progress lost s (s.setDemand i d') := by
    intro d d' hd hissued
    obtain ⟨hi, rfl⟩ := List.getElem?_eq_some_iff.1 hd
    have hmap : (s.sync.demands.set i d').map SyncDemand.issued =
        s.sync.demands.map SyncDemand.issued := by
      rw [map_set, hissued, ← getElem_map SyncDemand.issued (h := by simpa using hi),
        set_getElem_self]
    exact ⟨prefix_rfl, fun _ _ => rfl, fun _ _ hr => hr, prefix_rfl,
      hmap ▸ prefix_rfl, .refl hwf, fun _ hr _ ht => .inl ⟨hr, ht⟩, fun _ => rfl⟩
  unfold WalGroup.demandStep
  split
  case h_1 hd => exact hset _ _ hd rfl
  case h_2 hd =>
    split_ifs
    · exact hset _ _ hd rfl
    · exact hset _ _ hd rfl
    · exact .refl hwf
  case h_3 => exact .refl hwf

/-! ## Steps and runs -/

/-- **What one step does.** -/
theorem Secured.progress (hs : Secured s) (e : Event) : Progress (s.losesSight e) s (s.step e) := by
  obtain ⟨h, hb, hst⟩ := hs
  have hwf := hb.wf
  -- many steps touch nothing that `Progress` looks at
  cases e with ((simp only [WalGroup.step, WalGroup.appendTicketed, WalGroup.appendMany,
    WalGroup.cancel, WalGroup.land, WalGroup.roundStart, WalGroup.roundCapture, WalGroup.roundFsync,
    WalGroup.roundFail]; repeat' split) <;> try exact .move (.refl hwf) rfl)
  | appendTicketed payload version durability =>
    have hsubmit : Progress false s (s.submit [(payload, version)] durability) :=
      progress_submit h hwf _ _
    first
    | exact progress_failed hwf rfl hsubmit.requests rfl
    | exact progress_submit h hwf _ _
  | appendMany entries durability => exact progress_submit h hwf _ _
  | call t => exact progress_driveAndWait hwf t
  | land write => exact .move (hwf.leads_attempt write _) rfl
  | roundSync succeeds => exact progress_roundSync hb succeeds
  | demand =>
    exact ⟨prefix_rfl, fun _ _ => rfl, fun _ _ hr => hr, prefix_rfl,
      by simp [WalGroup.demand], .refl hwf, fun _ hr _ ht => .inl ⟨hr, ht⟩,
      fun _ => rfl⟩
  | demandStep i => exact progress_demandStep hwf i
  | _ => exact progress_leaderStep h hb hst ‹_› _

/-- What a whole run does. -/
theorem progress_run (h : Secured s) (es : List Event) : Progress true s (run step s es) := by
  induction es generalizing s with
  | nil => exact .refl h.barrier.wf
  | cons e es ih =>
    obtain ⟨hsettled, htickets, hrequests, habandoned, hissued, hsink, hsynced, -⟩ := h.progress e
    exact Progress.trans ⟨hsettled, htickets, hrequests, habandoned, hissued, hsink, hsynced, nofun⟩
      (ih (h.step e))

/-- No poisoned segment goes out of sight. -/
def KeepsInSight (s : WalGroup) (e : Event) : Prop := s.losesSight e = false

instance (s : WalGroup) (e : Event) : Decidable (KeepsInSight s e) :=
  inferInstanceAs (Decidable (_ = _))

/-- What a run does while nothing goes out of sight. -/
theorem progress_along (h : Secured s) {es : List Event}
    (hes : Along step KeepsInSight s es) : Progress false s (run step s es) := by
  induction es generalizing s with
  | nil => exact .refl h.barrier.wf
  | cons e es ih =>
    have hstep := h.progress e
    rw [hes.1] at hstep
    exact hstep.trans (ih (h.step e) hes.2)

end WalGroup

end ShamirDb
