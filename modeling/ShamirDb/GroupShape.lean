/-
# Who holds which ticket

The bookkeeping invariant of the group commit, true in every run: the requests on the
queue, in the leader's hand and in settled windows are distinct, and the state of a ticket
says where its request is.  A queued ticket is new, or failed in a stopped group; a ticket
in the leader's hand is new until the leader is abandoned, and unknown before anybody can
see the group stopped; a settled one is never failed.
-/
import Mathlib.Data.List.Flatten
import ShamirDb.Machine
import ShamirDb.WalGroupCommit

namespace ShamirDb

open List Option Function

/-- The stages inside `append_batch`. -/
def LeadStage.inWrite : LeadStage → Bool
  | .entering | .first | .checking | .rotating | .retrying | .sealing | .swapping => true
  | _ => false

namespace WalGroup

/-! ## Marking tickets -/

variable {r : WalRequest} {ws : List WalRequest} {tickets : Nat → WalTicket} {t : Nat}
  {s : WalGroup}

/-- The ticket of a request in the window is changed. -/
theorem mark_of_mem (h : r ∈ ws) (f : WalTicket → WalTicket) (tickets : Nat → WalTicket) :
    mark ws f tickets r.ticket = f (tickets r.ticket) := by
  rw [mark, if_pos (mem_map_of_mem h)]

/-- The others are not. -/
theorem mark_of_not_mem (h : ∀ r ∈ ws, r.ticket ≠ t) (f : WalTicket → WalTicket)
    (tickets : Nat → WalTicket) : mark ws f tickets t = tickets t := by
  rw [mark, if_neg]
  intro ht
  obtain ⟨r, hr, hrt⟩ := mem_map.1 ht
  exact h r hr hrt

/-- A ticket that is done stays as it is. -/
theorem complete_of_done {t : WalTicket} (h : t.done = true) (state : WalTicketState) :
    t.complete state = t := by
  rw [WalTicket.complete, if_pos h]

/-- One that is not takes the new state. -/
theorem complete_of_not_done {t : WalTicket} (h : t.done = false) (state : WalTicketState) :
    t.complete state = ⟨state, true⟩ := by
  rw [WalTicket.complete, if_neg (by simp [h])]

/-- Completing a ticket a second time changes nothing. -/
theorem mark_complete_of_done (h : (tickets t).done = true) (ws : List WalRequest)
    (state : WalTicketState) : mark ws (WalTicket.complete state) tickets t = tickets t := by
  rw [mark]
  split
  · exact complete_of_done h state
  · rfl

/-- No other completion makes a ticket acked. -/
theorem acked_of_mark_complete {state : WalTicketState} (hstate : state ≠ .acked)
    (h : (mark ws (WalTicket.complete state) tickets t).state = .acked) :
    (tickets t).state = .acked := by
  rw [mark] at h
  split at h
  · cases hdone : (tickets t).done with
    | true => rwa [complete_of_done hdone] at h
    | false =>
      rw [complete_of_not_done hdone] at h
      exact absurd h hstate
  · exact h

/-! ## The invariant -/

/-- The stage of the leader, if there is one. -/
def stage? (s : WalGroup) : Option LeadStage := s.leader.map LeaderGuard.stage

/-- The stage of the leader. -/
theorem stage_of {guard : LeaderGuard} (hleader : s.leader = some guard) {stage : LeadStage}
    (hg : guard.stage = stage) : s.stage? = some stage := by
  rw [stage?, hleader, map_some, hg]

/-- The tickets of the leader's window are published as unknown. -/
def published (s : WalGroup) : Bool := s.indeterminate || s.stage? == some .stopping

/-- The settled requests the leader has not completed yet. -/
def waiting (s : WalGroup) : List WalRequest :=
  match s.stage? with
  | some (.demanding window) => window
  | some (.syncing window _ _) => window
  | some (.abandoning metas) => metas
  | _ => []

/-- The requests of a window that wait for their fsync. -/
def Waits (s : WalGroup) (window : List WalRequest) : Prop :=
  ∀ r ∈ window, r ∈ s.settled.flatten ∧
    (r.durability = .synced → s.tickets r.ticket = ⟨.written, false⟩)

/-- What the stage of the leader says about the flags and the window in its hand. -/
def StageOk (s : WalGroup) : Prop :=
  match s.stage? with
  | none | some .looking => s.indeterminate = false → s.hand = [] ∧ s.detached = false
  | some .breaking => s.indeterminate = false ∧ s.hand = [] ∧ s.detached = false
  | some (.demanding window) | some (.syncing window _ _) =>
    s.indeterminate = false ∧ s.hand = [] ∧ s.detached = false ∧ s.Waits window
  | some .entering | some .first | some .checking | some .rotating | some .retrying
  | some .sealing | some .swapping => s.indeterminate = false ∧ s.detached = false
  | some (.abandoning metas) =>
    -- a leader elected just before the group stopped can be dropped with an empty window
    if s.indeterminate then metas = [] else metas = s.hand ∨ s.hand = [] ∧ s.Waits metas
  | some .stopping => True
  | some .releasing => s.indeterminate = true

/-- The ticket of a settled request. -/
def SettledOk (s : WalGroup) (r : WalRequest) : Prop :=
  match r.durability with
  | .buffered => s.tickets r.ticket = ⟨.acked, true⟩
  | .synced =>
    s.tickets r.ticket = ⟨.acked, true⟩ ∨ s.tickets r.ticket = ⟨.written, true⟩ ∨
      s.tickets r.ticket = ⟨.unknown, true⟩ ∨
      s.tickets r.ticket = ⟨.written, false⟩ ∧ r ∈ s.waiting

theorem SettledOk.mono {s' : WalGroup} (h : s.SettledOk r)
    (ht : s'.tickets r.ticket = s.tickets r.ticket)
    (hw : r.durability = .synced → r ∈ s.waiting → r ∈ s'.waiting) : s'.SettledOk r := by
  unfold SettledOk at h ⊢
  rw [ht]
  split at h
  case h_1 => exact h
  case h_2 hd =>
    rcases h with h | h | h | ⟨h, hmem⟩
    · exact .inl h
    · exact .inr (.inl h)
    · exact .inr (.inr (.inl h))
    · exact .inr (.inr (.inr ⟨h, hw hd hmem⟩))

/-- The requests that are somewhere: settled, in the leader's hand, or queued. -/
def live (s : WalGroup) : List WalRequest := s.settled.flatten ++ s.hand ++ s.pending

structure Shape (s : WalGroup) : Prop where
  guard : s.flushing = s.leader.isSome
  known : ∀ r ∈ s.live, s.requests r.ticket = some r
  named : ∀ t r, s.requests t = some r → r.ticket = t ∧ t < s.nextTicket
  nodup : (s.live.map WalRequest.ticket).Nodup
  fresh : ∀ t, s.nextTicket ≤ t → s.tickets t = WalTicket.new
  queued : ∀ r ∈ s.pending, s.tickets r.ticket = WalTicket.new ∨
    s.tickets r.ticket = ⟨.failed, true⟩ ∧ s.indeterminate = true
  held : ∀ r ∈ s.hand, s.tickets r.ticket =
    if s.published then ⟨.unknown, true⟩ else WalTicket.new
  settled : ∀ r ∈ s.settled.flatten, s.SettledOk r
  acked : ∀ t, (s.tickets t).state = .acked → ∃ r ∈ s.settled.flatten, r.ticket = t
  stage : s.StageOk
  rechecking : ∀ t, s.phases t = .rechecking ∨ s.phases t = .failing → s.indeterminate = true
  abandoned : ∀ w ∈ s.abandoned, ∀ r ∈ w, s.tickets r.ticket = ⟨.unknown, true⟩ ∨
    s.tickets r.ticket = ⟨.acked, true⟩
  stopped : s.abandoned ≠ [] → s.published = true

/-- A new group. -/
theorem shape_start (mem observer : Bool) : Shape (start mem observer) where
  guard := rfl
  known := by simp [live, start]
  named := by simp [start]
  nodup := by simp [live, start]
  fresh := fun _ _ => rfl
  queued := by simp [start]
  held := by simp [start]
  settled := by simp [start]
  acked := by simp [start, WalTicket.new]
  stage := fun _ => ⟨rfl, rfl⟩
  rechecking := by simp [start]
  abandoned := by simp [start]
  stopped := fun hne => absurd rfl hne

variable {s : WalGroup}

/-- Settled requests are live. -/
theorem mem_live_settled (hr : r ∈ s.settled.flatten) : r ∈ s.live :=
  mem_append_left _ (mem_append_left _ hr)

/-- So are those in hand. -/
theorem mem_live_hand (hr : r ∈ s.hand) : r ∈ s.live :=
  mem_append_left _ (mem_append_right _ hr)

/-- So are pending ones. -/
theorem mem_live_pending (hr : r ∈ s.pending) : r ∈ s.live :=
  mem_append_right _ hr

namespace Shape

variable (h : Shape s)
include h

variable {r r' : WalRequest}

/-- A ticket belongs to one live request. -/
theorem eq_of_ticket (hr : r ∈ s.live) (hr' : r' ∈ s.live) (heq : r.ticket = r'.ticket) :
    r = r' := by
  have h1 := h.known r hr
  rw [heq, h.known r' hr'] at h1
  exact (some.inj h1).symm

variable {r : WalRequest} {w : List WalRequest}

/-- Tickets in use are below the next one. -/
theorem ticket_lt (hr : r ∈ s.live) : r.ticket < s.nextTicket :=
  (h.named _ r (h.known r hr)).2

/-- Settled and in hand are different tickets. -/
theorem settled_ne_hand (hr : r ∈ s.settled.flatten) (hr' : r' ∈ s.hand) :
    r.ticket ≠ r'.ticket := by
  have hnodup := h.nodup
  rw [live, map_append, map_append] at hnodup
  exact (nodup_append.1 (nodup_append.1 hnodup).1).2.2 _ (mem_map_of_mem hr) _ (mem_map_of_mem hr')

/-- Settled and pending are different tickets. -/
theorem settled_ne_pending (hr : r ∈ s.settled.flatten) (hr' : r' ∈ s.pending) :
    r.ticket ≠ r'.ticket := by
  have hnodup := h.nodup
  rw [live, map_append] at hnodup
  exact (nodup_append.1 hnodup).2.2 _ (mem_map_of_mem (mem_append_left _ hr)) _ (mem_map_of_mem hr')

/-- In hand and pending are different tickets. -/
theorem hand_ne_pending (hr : r ∈ s.hand) (hr' : r' ∈ s.pending) : r.ticket ≠ r'.ticket := by
  have hnodup := h.nodup
  rw [live, map_append] at hnodup
  exact (nodup_append.1 hnodup).2.2 _
    (mem_map_of_mem (mem_append_right _ hr)) _ (mem_map_of_mem hr')

/-- In a stopped group no settled request waits. -/
theorem waiting_eq_nil (hind : s.indeterminate = true) : s.waiting = [] := by
  have hstage := h.stage
  unfold StageOk at hstage
  unfold waiting
  split at hstage <;> simp_all

/-- Nothing is abandoned as long as no window is published as unknown. -/
theorem not_stopped (hpub : s.published = false) {p : Prop} (hne : s.abandoned ≠ []) : p := by
  rw [h.stopped hne] at hpub
  cases hpub

/-- With no window waiting all settled tickets are done. -/
theorem settled_done (hwait : s.waiting = []) (hr : r ∈ s.settled.flatten) :
    (s.tickets r.ticket).done = true := by
  have hok := h.settled r hr
  unfold SettledOk at hok
  split at hok
  · rw [hok]
  rcases hok with hok | hok | hok | hok
  · rw [hok]
  · rw [hok]
  · rw [hok]
  · rw [hwait] at hok
    cases hok.2

/-- There is a leader only while the group flushes. -/
theorem flushing_of {guard : LeaderGuard} (hleader : s.leader = some guard) : s.flushing = true := by
  rw [h.guard, hleader]
  rfl

/-- A window of live requests has no ticket that is still to be given out. -/
theorem fresh_mark {ws : List WalRequest} (hws : ∀ r ∈ ws, r ∈ s.live) (f : WalTicket → WalTicket)
    {t : Nat} (ht : s.nextTicket ≤ t) : mark ws f s.tickets t = WalTicket.new := by
  refine (mark_of_not_mem (fun r hr => ?_) _ _).trans (h.fresh t ht)
  exact (Nat.lt_of_lt_of_le (h.ticket_lt (hws r hr)) ht).ne

/-- The tickets of an abandoned window are done. -/
theorem abandoned_done (hw : w ∈ s.abandoned) (hr : r ∈ w) : (s.tickets r.ticket).done = true := by
  rcases h.abandoned w hw r hr with hold | hold <;> rw [hold]

/-- Completing the tickets of a window leaves the abandoned ones as they are. -/
theorem abandoned_mark (ws : List WalRequest) (state : WalTicketState) (hw : w ∈ s.abandoned)
    (hr : r ∈ w) :
    mark ws (WalTicket.complete state) s.tickets r.ticket = ⟨.unknown, true⟩ ∨
      mark ws (WalTicket.complete state) s.tickets r.ticket = ⟨.acked, true⟩ := by
  rw [mark_complete_of_done (h.abandoned_done hw hr)]
  exact h.abandoned w hw r hr

/-! ## Steps that move flags and phases only -/

/-- The sink, the coordinator and the floor are not its matter. -/
theorem environment (sink : FrameSink WalFrame) (sync : SyncCoordinator) (floor : Nat) :
    Shape { s with sink, sync, floor } :=
  { h with }

/-- Calls move on. -/
theorem setPhases {phases : Nat → CallPhase}
    (hphases : ∀ t, phases t = s.phases t ∨
      (phases t = .rechecking ∨ phases t = .failing → s.indeterminate = true)) :
    Shape { s with phases } := by
  refine { h with rechecking := fun t ht => ?_ }
  rcases hphases t with hsame | hnew
  · exact h.rechecking t (hsame ▸ ht)
  · exact hnew ht

/-- One call moves on. -/
theorem setPhase (t : Nat) (phase : CallPhase)
    (hphase : phase = .rechecking ∨ phase = .failing → s.indeterminate = true) :
    Shape (s.setPhase t phase) := by
  refine h.setPhases fun u => ?_
  by_cases hut : u = t
  · subst hut
    rw [update_self]
    exact .inr hphase
  · exact .inl (update_of_ne hut _ _)

/-- The owner of the guard parks or is cancelled. -/
theorem moveOwner (owner : Option Nat) {phase : CallPhase}
    (hphase : phase = .parked ∨ phase = .cancelled) :
    Shape { s with phases := WalGroup.moveOwner owner phase s.phases } := by
  cases owner with
  | none => exact h
  | some t => exact h.setPhase t phase (by rcases hphase with rfl | rfl <;> simp)

/-- The leader moves on; the tickets stay as they are. -/
theorem setLeader (flushing detached : Bool) (leader : Option LeaderGuard)
    (hguard : flushing = leader.isSome)
    (hpub : ({ s with flushing, leader, detached } : WalGroup).published = s.published)
    (hwait : ∀ r ∈ s.waiting, r ∈ ({ s with flushing, leader, detached } : WalGroup).waiting)
    (hstage : ({ s with flushing, leader, detached } : WalGroup).StageOk) :
    Shape { s with flushing, leader, detached } := by
  refine { h with
    guard := hguard, held := ?_, settled := ?_, stage := hstage
    stopped := fun hne => hpub.trans (h.stopped hne) }
  · intro r hr
    rw [hpub]
    exact h.held r hr
  · intro r hr
    exact (h.settled r hr).mono rfl fun _ => hwait r

/-! ## Callers -/

/-- A call takes the next ticket. -/
theorem register (entries : List (Bytes × UInt64)) (durability : WalDurability) :
    Shape { s with
      nextTicket := s.nextTicket + 1
      requests := update s.requests s.nextTicket (some ⟨s.nextTicket, entries, durability⟩) } := by
  refine { h with known := ?_, named := ?_, fresh := ?_ }
  · intro r hr
    exact (update_of_ne (h.ticket_lt hr).ne _ _).trans (h.known r hr)
  · intro t r ht
    by_cases hnew : t = s.nextTicket
    · subst hnew
      simp only [update_self, some.injEq] at ht
      subst ht
      exact ⟨rfl, Nat.lt_succ_self _⟩
    · simp only [update_of_ne hnew] at ht
      exact ⟨(h.named t r ht).1, Nat.lt_succ_of_lt (h.named t r ht).2⟩
  · intro t ht
    exact h.fresh t (Nat.le_of_succ_le ht)

/-- The push of a call puts a new ticket on the queue. -/
theorem submit (entries : List (Bytes × UInt64)) (durability : WalDurability) :
    Shape (s.submit entries durability) := by
  have hnew := (h.register entries durability).setPhase s.nextTicket .driving (by simp)
  have hlive : (s.submit entries durability).live =
      s.live ++ [⟨s.nextTicket, entries, durability⟩] := by
    simp [live, WalGroup.submit]
  refine { hnew with known := ?_, nodup := ?_, queued := ?_ }
  · intro r hr
    rw [hlive] at hr
    rcases mem_append.1 hr with hr | hr
    · exact hnew.known r hr
    · rw [mem_singleton.1 hr]
      exact update_self _ _ _
  · rw [hlive, map_append, nodup_append]
    refine ⟨h.nodup, by simp, ?_⟩
    intro a ha b hb
    obtain ⟨r, hr, rfl⟩ := mem_map.1 ha
    rw [map_cons, map_nil, mem_singleton] at hb
    rw [hb]
    exact (h.ticket_lt hr).ne
  · exact forall_mem_append.2
      ⟨h.queued, forall_mem_singleton.2 (.inl (h.fresh s.nextTicket le_rfl))⟩

/-- Completing one ticket in a stopped group: whatever is settled or in a leader's hand is
completed already, so only a queued ticket can change. -/
theorem completeStopped (hind : s.indeterminate = true) (t : Nat) (ht : t < s.nextTicket) :
    Shape { s with tickets := update s.tickets t ((s.tickets t).complete .failed) } := by
  have hsame : ∀ u, (s.tickets u).done = true →
      update s.tickets t ((s.tickets t).complete .failed) u = s.tickets u := by
    intro u hu
    by_cases hut : u = t
    · subst hut
      rw [update_self, complete_of_done hu]
    · rw [update_of_ne hut]
  have hwait := h.waiting_eq_nil hind
  refine { h with
    fresh := ?_, queued := ?_, held := ?_, settled := ?_, acked := ?_, stage := ?_, abandoned := ?_ }
  · intro u hu
    have hne : u ≠ t := (Nat.lt_of_lt_of_le ht hu).ne'
    exact (update_of_ne hne _ _).trans (h.fresh u hu)
  · intro r hr
    by_cases hrt : r.ticket = t
    · refine .inr ⟨?_, hind⟩
      rcases h.queued r hr with hnew | ⟨hfailed, -⟩
      · rw [← hrt]
        simp [hnew, WalTicket.new, WalTicket.complete]
      · exact (hsame _ (by rw [hfailed])).trans hfailed
    · simpa only [update_of_ne hrt] using h.queued r hr
  · intro r hr
    have hheld := h.held r hr
    have hpub : s.published = true := by simp [published, hind]
    rw [hpub, if_pos rfl] at hheld
    have hpub' : ({ s with tickets := update s.tickets t ((s.tickets t).complete .failed) } :
        WalGroup).published = true := hpub
    rw [hpub']
    exact (hsame _ (by rw [hheld])).trans hheld
  · intro r hr
    exact (h.settled r hr).mono (hsame _ (h.settled_done hwait hr)) fun _ => id
  · intro u hu
    refine h.acked u ?_
    by_cases hut : u = t
    · subst hut
      cases hdone : (s.tickets u).done with
      | true => simpa [complete_of_done hdone] using hu
      | false => simp [complete_of_not_done hdone] at hu
    · simpa only [update_of_ne hut] using hu
  · -- the stage of a stopped group does not look at tickets
    have hstage := h.stage
    unfold StageOk at hstage ⊢
    have hst : ({ s with tickets := update s.tickets t ((s.tickets t).complete .failed) } :
        WalGroup).stage? = s.stage? := rfl
    split at hstage <;> simp_all
  · intro w hw r hr
    have hold := h.abandoned w hw r hr
    have hdone : (s.tickets r.ticket).done = true := by
      rcases hold with hold | hold <;> rw [hold]
    simpa only [hsame _ hdone] using hold

/-- A refused call takes a ticket that never gets on the queue. -/
theorem appendTicketed (payload : Bytes) (version : UInt64) (durability : WalDurability) :
    Shape (s.appendTicketed payload version durability) := by
  unfold WalGroup.appendTicketed
  split
  case isFalse => exact h.submit _ _
  case isTrue hind =>
    have hfailed := (h.register [(payload, version)] durability).completeStopped hind s.nextTicket
      (Nat.lt_succ_self _)
    exact hfailed.setPhase s.nextTicket _ (by simp)

/-! ## The leader -/

/-- A call looks for the lead. -/
theorem driveAndWait (t : Nat) (ht : t < s.nextTicket) : Shape (s.driveAndWait t) := by
  unfold WalGroup.driveAndWait
  split
  · exact h.setPhase t _ (by split <;> simp)
  · split
    case isTrue => exact h.setPhase t _ (by simp)
    case isFalse hfree =>
      have hnone : s.leader = none := by
        have hguard := h.guard
        rw [Bool.not_eq_true] at hfree
        rw [hfree] at hguard
        exact isSome_eq_false_iff.1 hguard.symm |> isNone_iff_eq_none.1
      have hparked := h.setPhase t .leading (by simp)
      refine hparked.setLeader true s.detached _ rfl ?_ ?_ ?_
      · simp [published, stage?, WalGroup.setPhase, hnone]
      · simp [waiting, stage?, WalGroup.setPhase, hnone]
      · have hstage := h.stage
        simp only [StageOk, stage?, hnone] at hstage
        exact hstage
  · split <;> exact h.setPhase t _ (by simp)
  · refine h.setPhase t _ ?_
    split
    · intro _
      assumption
    · simp
  · rename_i hphase
    split
    · exact h.setPhase t _ (by simp)
    · exact h.setPhase t _ fun _ => h.rechecking t (.inl hphase)
  · rename_i hphase
    exact (h.completeStopped (h.rechecking t (.inr hphase)) t ht).setPhase t _ (by simp)
  · exact h

/-- A call is dropped. -/
theorem cancel (t : Nat) : Shape (s.cancel t) := by
  unfold WalGroup.cancel
  split
  · exact h
  · exact h
  · exact h.setPhase t _ (by simp)

variable {guard : LeaderGuard} {window : List WalRequest}

section

variable (hleader : s.leader = some guard)
include hleader

/-- The leader takes the pending requests. -/
theorem lead (hlooking : guard.stage = .looking) : Shape (s.lead guard) := by
  have hst := stage_of hleader hlooking
  have hstage := h.stage
  simp only [StageOk, hst] at hstage
  unfold WalGroup.lead
  split
  case isTrue =>
    refine (h.moveOwner guard.owner (.inl rfl)).setLeader false s.detached none rfl ?_ ?_ ?_
    · simp [published, stage?, hleader, hlooking]
    · simp [waiting, stage?, hleader, hlooking]
    · exact hstage
  case isFalse hgo =>
    rw [not_or, Bool.not_eq_true] at hgo
    obtain ⟨hhand, hdetached⟩ := hstage hgo.1
    split
    · refine (h.moveOwner guard.owner (.inl rfl)).setLeader s.flushing s.detached _
        (h.flushing_of hleader) ?_ ?_ ?_
      · simp [published, stage?, hleader, hlooking]
      · simp [waiting, stage?, hleader, hlooking]
      · exact hstage
    -- the whole queue becomes the window
    have hlive' : ({ s with
        leader := some { guard with stage := .entering }, hand := s.pending, pending := [] } :
        WalGroup).live = s.live := by
      simp [live, hhand]
    refine ⟨h.flushing_of hleader, ?_, h.named, ?_, h.fresh, ?_, ?_, ?_, h.acked, ?_,
      h.rechecking, h.abandoned, h.not_stopped (by simp [published, hst, hgo.1])⟩
    · rw [hlive']
      exact h.known
    · rw [hlive']
      exact h.nodup
    · simp
    · intro r hr
      have hpub : ({ s with
          leader := some { guard with stage := .entering }, hand := s.pending, pending := [] } :
          WalGroup).published = false := by
        simp [published, stage?, hgo.1]
      rw [hpub]
      rcases h.queued r hr with hnew | ⟨-, hind⟩
      · exact hnew
      · rw [hgo.1] at hind
        cases hind
    · intro r hr
      exact (h.settled r hr).mono rfl (by simp [waiting, hst])
    · exact ⟨hgo.1, hdetached⟩

section

variable (hin : guard.stage.inWrite = true)
include hin

/-- What holds while the leader is inside `append_batch`. -/
theorem inWrite :
    s.indeterminate = false ∧ s.detached = false ∧ s.published = false ∧ s.waiting = [] := by
  have hst := stage_of hleader rfl
  have hstage := h.stage
  unfold StageOk at hstage
  unfold published waiting
  cases hg : guard.stage <;> simp_all [LeadStage.inWrite]

/-- A ticket in hand is untouched. -/
theorem held_new (hr : r ∈ s.hand) : s.tickets r.ticket = WalTicket.new := by
  have hheld := h.held r hr
  rw [(h.inWrite hleader hin).2.2.1] at hheld
  exact hheld

/-- The leader goes on inside `append_batch`. -/
theorem setStage
    {stage : LeadStage} (hin' : stage.inWrite = true) : Shape (s.setStage guard stage) := by
  obtain ⟨hind, hdet, hpub, hwait⟩ := h.inWrite hleader hin
  refine h.setLeader s.flushing s.detached _ (h.flushing_of hleader) ?_ ?_ ?_
  · cases stage <;> simp_all [published, stage?, LeadStage.inWrite]
  · simp [hwait]
  · cases stage <;> simp_all [StageOk, stage?, LeadStage.inWrite]

/-- The write is known to have happened. -/
theorem publish : Shape (s.publish guard) := by
  obtain ⟨hind, hdet, hpub, hwait⟩ := h.inWrite hleader hin
  have hlive : (s.publish guard).live = s.live := by simp [live, WalGroup.publish]
  -- what publishing does to a ticket, by where its request is
  have hout : ∀ t, (∀ r ∈ s.hand, r.ticket ≠ t) → (s.publish guard).tickets t = s.tickets t := by
    intro t ht
    show mark _ _ (mark _ _ _) t = _
    rw [mark_of_not_mem (fun r hr => ht r (mem_filter.1 hr).1), mark_of_not_mem ht]
  have hbuffered : ∀ r ∈ s.hand, r.durability = .buffered →
      (s.publish guard).tickets r.ticket = ⟨.acked, true⟩ := by
    intro r hr hd
    show mark _ _ (mark _ _ _) r.ticket = _
    rw [mark_of_mem (mem_filter.2 ⟨hr, by simp [hd]⟩), mark_of_mem hr, h.held_new hleader hin hr]
    rfl
  have hsynced : ∀ r ∈ s.hand, r.durability = .synced →
      (s.publish guard).tickets r.ticket = ⟨.written, false⟩ := by
    intro r hr hd
    show mark _ _ (mark _ _ _) r.ticket = _
    rw [mark_of_not_mem, mark_of_mem hr, h.held_new hleader hin hr]
    · rfl
    · intro r' hr' heq
      obtain ⟨hr', hd'⟩ := mem_filter.1 hr'
      rw [h.eq_of_ticket (mem_live_hand hr') (mem_live_hand hr) heq, hd] at hd'
      simp at hd'
  have hmem : ∀ r, r ∈ (s.publish guard).settled.flatten ↔ r ∈ s.settled.flatten ∨ r ∈ s.hand := by
    simp [WalGroup.publish]
  have hwaits : ∀ r ∈ s.hand, r.durability = .synced → r ∈ (s.publish guard).waiting := by
    intro r hr hd
    have hany : (s.hand.any fun r => r.durability = .synced) = true :=
      any_eq_true.2 ⟨r, hr, by simp [hd]⟩
    simpa only [waiting, stage?, WalGroup.publish, hany, map_some, if_true] using hr
  refine ⟨h.flushing_of hleader, ?_, h.named, ?_, ?_, ?_, ?_, ?_, ?_, ?_, h.rechecking, ?_,
    h.not_stopped hpub⟩
  · rw [hlive]
    exact h.known
  · rw [hlive]
    exact h.nodup
  · intro t ht
    rw [hout t fun r hr => (Nat.lt_of_lt_of_le (h.ticket_lt (mem_live_hand hr)) ht).ne]
    exact h.fresh t ht
  · intro r hr
    rw [hout r.ticket fun r' hr' => h.hand_ne_pending hr' hr]
    exact h.queued r hr
  · nofun
  · intro r hr
    rcases (hmem r).1 hr with hr | hr
    · refine (h.settled r hr).mono (hout r.ticket fun r' hr' => (h.settled_ne_hand hr hr').symm) ?_
      simp [hwait]
    · unfold SettledOk
      split
      case h_1 hd => exact hbuffered r hr hd
      case h_2 hd => exact .inr (.inr (.inr ⟨hsynced r hr hd, hwaits r hr hd⟩))
  · intro t ht
    by_cases hhand : ∃ r ∈ s.hand, r.ticket = t
    · obtain ⟨r, hr, hrt⟩ := hhand
      exact ⟨r, (hmem r).2 (.inr hr), hrt⟩
    · rw [hout t fun r hr hrt => hhand ⟨r, hr, hrt⟩] at ht
      obtain ⟨r, hr, hrt⟩ := h.acked t ht
      exact ⟨r, (hmem r).2 (.inl hr), hrt⟩
  · by_cases hany : (s.hand.any fun r => r.durability = .synced) = true
    · have hst : (s.publish guard).stage? = some (.demanding s.hand) := by
        simp only [stage?, WalGroup.publish, hany, map_some, if_true]
      simp only [StageOk, hst]
      exact ⟨hind, rfl, hdet, fun r hr => ⟨(hmem r).2 (.inr hr), hsynced r hr⟩⟩
    · have hst : (s.publish guard).stage? = some .looking := by
        simp only [WalGroup.publish, hany]
        rfl
      simp only [StageOk, hst]
      exact fun _ => ⟨rfl, hdet⟩
  · intro w hw r hr
    have hold := h.abandoned w hw r hr
    rw [hout r.ticket]
    · exact hold
    · intro r' hr' heq
      rw [← heq, h.held_new hleader hin hr'] at hold
      simp [WalTicket.new] at hold

/-- The write failed: unknown for a file sink, known for a memory sink. -/
theorem reject :
    Shape (s.reject guard) := by
  obtain ⟨hind, hdet, hpub, hwait⟩ := h.inWrite hleader hin
  unfold WalGroup.reject
  split
  case isFalse =>
    refine h.setLeader s.flushing s.detached _ (h.flushing_of hleader) ?_ ?_ ?_
    · rw [hpub]
      simp [published, stage?, hind]
    · simp [hwait]
    · simp [StageOk, stage?, hind]
  case isTrue =>
    have hsub : ({ s with
        tickets := mark s.hand (WalTicket.complete .failed) s.tickets
        hand := []
        leader := some { guard with stage := .breaking } } : WalGroup).live.Sublist s.live := by
      simp only [live, append_nil]
      exact (sublist_append_left _ _).append (List.Sublist.refl _)
    refine ⟨h.flushing_of hleader, fun r hr => h.known r (hsub.subset hr), h.named,
      h.nodup.sublist (hsub.map _), fun t ht => h.fresh_mark (fun _ => mem_live_hand) _ ht, ?_, ?_, ?_,
      ?_, ?_, h.rechecking, fun w hw r hr => h.abandoned_mark _ _ hw hr, h.not_stopped hpub⟩
    · intro r hr
      have hsame := mark_of_not_mem (fun r' hr' => h.hand_ne_pending hr' hr)
        (WalTicket.complete .failed) s.tickets
      simpa only [hsame] using h.queued r hr
    · nofun
    · intro r hr
      refine (h.settled r hr).mono
        (mark_of_not_mem (fun r' hr' => (h.settled_ne_hand hr hr').symm) _ _) ?_
      simp [hwait]
    · intro t ht
      exact h.acked t (acked_of_mark_complete (by simp) ht)
    · simp only [StageOk]
      exact ⟨hind, trivial, hdet⟩

end

section

variable (hsync : guard.stage = .demanding window ∨ ∃ epoch target, guard.stage = .syncing window epoch target)
include hsync

/-- What holds while the leader syncs. -/
theorem inSync :
    s.indeterminate = false ∧ s.hand = [] ∧ s.detached = false ∧ s.Waits window ∧
      s.waiting = window ∧ s.published = false := by
  have hstage := h.stage
  unfold StageOk at hstage
  unfold waiting published
  rcases hsync with hst | ⟨epoch, target, hst⟩
  · rw [stage_of hleader hst] at hstage ⊢
    simp_all
  · rw [stage_of hleader hst] at hstage ⊢
    simp_all

/-- The fsync of the window is over. -/
theorem finishSync
    (ok : Bool) : Shape (s.finishSync guard window ok) := by
  obtain ⟨hind, hhand, hdet, hwaits, hwait, hpub⟩ := h.inSync hleader hsync
  -- the tickets of synced requests in the window are completed, no other ticket changes
  have hin : ∀ r ∈ window, r.durability = .synced → (s.finishSync guard window ok).tickets r.ticket =
      ⟨if ok then .acked else .written, true⟩ := by
    intro r hr hd
    show mark _ _ _ r.ticket = _
    rw [mark_of_mem (mem_filter.2 ⟨hr, by simp [hd]⟩), (hwaits r hr).2 hd]
    rfl
  have hout : ∀ t, (∀ r ∈ window, r.durability = .synced → r.ticket ≠ t) →
      (s.finishSync guard window ok).tickets t = s.tickets t := by
    intro t ht
    refine mark_of_not_mem (fun r hr => ?_) _ _
    obtain ⟨hr, hd⟩ := mem_filter.1 hr
    exact ht r hr (by simpa using hd)
  refine ⟨h.flushing_of hleader, h.known, h.named, h.nodup, ?_, ?_, ?_, ?_, ?_, ?_, h.rechecking,
    fun w hw r hr => h.abandoned_mark _ _ hw hr, h.not_stopped hpub⟩
  · exact fun t ht => h.fresh_mark
      (fun r hr => mem_live_settled (hwaits r (mem_filter.1 hr).1).1) _ ht
  · intro r hr
    rw [hout r.ticket fun r' hr' _ => h.settled_ne_pending (hwaits r' hr').1 hr]
    exact h.queued r hr
  · simp [show (s.finishSync guard window ok).hand = s.hand from rfl, hhand]
  · intro r hr
    by_cases hmem : r ∈ window ∧ r.durability = .synced
    · unfold SettledOk
      simp only [hmem.2, hin r hmem.1 hmem.2]
      cases ok <;> simp
    · refine (h.settled r hr).mono (hout r.ticket fun r' hr' hd' heq => hmem ?_) ?_
      · rw [← h.eq_of_ticket (mem_live_settled (hwaits r' hr').1) (mem_live_settled hr) heq]
        exact ⟨hr', hd'⟩
      · intro hd hw
        exact absurd ⟨hwait ▸ hw, hd⟩ hmem
  · intro t ht
    by_cases hmem : ∃ r ∈ window, r.durability = .synced ∧ r.ticket = t
    · obtain ⟨r, hr, -, hrt⟩ := hmem
      exact ⟨r, (hwaits r hr).1, hrt⟩
    · rw [hout t fun r hr hd hrt => hmem ⟨r, hr, hd, hrt⟩] at ht
      exact h.acked t ht
  · cases ok with
    | true =>
      exact fun _ => ⟨hhand, hdet⟩
    | false =>
      exact ⟨hind, hhand, hdet⟩

end

/-- The circuit breaker fails what is queued. -/
theorem drain (hbreaking : guard.stage = .breaking) : Shape (s.drain guard) := by
  have hst := stage_of hleader hbreaking
  have hstage := h.stage
  simp only [StageOk, hst] at hstage
  obtain ⟨hind, hhand, hdet⟩ := hstage
  have hsub : (s.drain guard).live.Sublist s.live := by
    simp only [live, WalGroup.drain, append_nil]
    exact sublist_append_left _ _
  refine ⟨rfl, fun r hr => h.known r (hsub.subset hr), h.named, h.nodup.sublist (hsub.map _),
    fun t ht => h.fresh_mark (fun _ => mem_live_pending) _ ht, ?_, ?_, ?_, ?_, ?_,
    (h.moveOwner guard.owner (.inl rfl)).rechecking, fun w hw r hr => h.abandoned_mark _ _ hw hr,
    h.not_stopped (by simp [published, hst, hind])⟩
  · nofun
  · simp [show (s.drain guard).hand = s.hand from rfl, hhand]
  · intro r hr
    refine (h.settled r hr).mono
      (mark_of_not_mem (fun r' hr' => (h.settled_ne_pending hr hr').symm) _ _) ?_
    simp [waiting, hst]
  · intro t ht
    exact h.acked t (acked_of_mark_complete (by simp) ht)
  · exact fun _ => ⟨hhand, hdet⟩

/-- The guard is dropped while armed: its window is about to become unknown. -/
theorem dropGuard : Shape (s.dropGuard guard) := by
  have hst := stage_of hleader rfl
  have hstage := h.stage
  have habandon : ∀ metas detached, (∀ r ∈ s.waiting, r ∈ metas) → s.published = s.indeterminate →
      (if s.indeterminate then metas = [] else metas = s.hand ∨ s.hand = [] ∧ s.Waits metas) →
      Shape { s with
        phases := WalGroup.moveOwner guard.owner .cancelled s.phases
        leader := some { guard with owner := none, stage := .abandoning metas }
        detached } := by
    intro metas detached hwait hpub hmetas
    refine (h.setLeader s.flushing detached
      (some { guard with owner := none, stage := .abandoning metas })
      (h.flushing_of hleader) ?_ hwait hmetas).moveOwner guard.owner (.inr rfl)
    rw [hpub]
    simp [published, stage?]
  -- from a stage inside the write the window is the one in the leader's hand
  have hwriting := fun (hin : guard.stage.inWrite = true) detached =>
    let ⟨hind, _, hpub, hwait⟩ := h.inWrite hleader hin
    habandon s.hand detached (by simp [hwait]) (hpub.trans hind.symm) (by simp [hind])
  unfold WalGroup.dropGuard
  -- from a later stage the window is settled and waits, or there is none
  cases hg : guard.stage with
  | looking =>
    simp only [StageOk, hst, hg] at hstage
    refine habandon [] s.detached (by simp [waiting, hst, hg]) (by simp [published, hst, hg]) ?_
    by_cases hind : s.indeterminate = false
    · simp [hind, hstage hind, Waits]
    · simp [hind]
  | breaking =>
    simp only [StageOk, hst, hg] at hstage
    refine habandon [] s.detached (by simp [waiting, hst, hg]) ?_ ?_
    · simp [published, hst, hg, hstage.1]
    · simp [hstage, Waits]
  | first | retrying => exact hwriting (hg ▸ rfl) true
  | entering | checking | rotating | sealing | swapping =>
    exact hwriting (hg ▸ rfl) s.detached
  | demanding window =>
    obtain ⟨hind, hhand, hdet, hwaits, hwait, hpub⟩ := h.inSync hleader (.inl hg)
    refine habandon window s.detached (by simp [hwait]) (hpub.trans hind.symm) ?_
    simp [hind, hhand, hwaits]
  | syncing window epoch target =>
    obtain ⟨hind, hhand, hdet, hwaits, hwait, hpub⟩ := h.inSync hleader (.inr ⟨epoch, target, hg⟩)
    refine habandon window s.detached (by simp [hwait]) (hpub.trans hind.symm) ?_
    simp [hind, hhand, hwaits]
  | abandoning _ | stopping | releasing => exact h

/-- Publishing `Unknown` for the window of a dropped guard. -/
theorem publishUnknown {metas : List WalRequest}
    (hg : guard.stage = .abandoning metas) : Shape { s with
      tickets := mark metas (WalTicket.complete .unknown) s.tickets
      abandoned := s.abandoned ++ [metas]
      leader := some { guard with stage := .stopping } } := by
  have hst := stage_of hleader hg
  have hwait : s.waiting = metas := by simp [waiting, hst]
  have hstage := h.stage
  simp only [StageOk, hst] at hstage
  -- what the window is: empty, in the hand, or settled and waiting
  have hcase : metas = [] ∧ s.indeterminate = true ∨
      s.indeterminate = false ∧ (metas = s.hand ∨ s.hand = [] ∧ s.Waits metas) := by
    cases hind : s.indeterminate with
    | true => exact .inl ⟨by simpa [hind] using hstage, rfl⟩
    | false => exact .inr ⟨rfl, by simpa [hind] using hstage⟩
  have hpub : s.published = s.indeterminate := by simp [published, hst]
  have hmem : ∀ r ∈ metas, r ∈ s.live := by
    intro r hr
    rcases hcase with ⟨rfl, -⟩ | ⟨-, hhand | ⟨-, hwaits⟩⟩
    · cases hr
    · exact mem_live_hand (hhand ▸ hr)
    · exact mem_live_settled (hwaits r hr).1
  have hpending : ∀ r ∈ metas, ∀ r' ∈ s.pending, r.ticket ≠ r'.ticket := by
    intro r hr r' hr'
    rcases hcase with ⟨rfl, -⟩ | ⟨-, hhand | ⟨-, hwaits⟩⟩
    · cases hr
    · exact h.hand_ne_pending (hhand ▸ hr) hr'
    · exact h.settled_ne_pending (hwaits r hr).1 hr'
  refine ⟨h.flushing_of hleader, h.known, h.named, h.nodup, fun t ht => h.fresh_mark hmem _ ht, ?_,
    ?_, ?_, ?_, trivial, h.rechecking, ?_, fun _ => by simp [published, stage?]⟩
  · intro r hr
    have hsame := mark_of_not_mem (fun r' hr' => hpending r' hr' r hr)
      (WalTicket.complete .unknown) s.tickets
    simpa only [hsame] using h.queued r hr
  · intro r hr
    have hpub' : ({ s with
        tickets := mark metas (WalTicket.complete .unknown) s.tickets
        abandoned := s.abandoned ++ [metas]
        leader := some { guard with stage := .stopping } } : WalGroup).published = true := by
      simp [published, stage?]
    rw [hpub']
    have hheld := h.held r hr
    rw [hpub] at hheld
    rcases hcase with ⟨hnil, hind⟩ | ⟨hind, hhand | ⟨hhand, -⟩⟩
    · rw [hind] at hheld
      simp [hnil, mark, hheld]
    · rw [hind] at hheld
      have hmark := mark_of_mem (hhand ▸ hr : r ∈ metas) (WalTicket.complete .unknown) s.tickets
      rw [hheld] at hmark
      exact hmark
    · rw [show r ∈ s.hand ↔ r ∈ ([] : List WalRequest) by rw [hhand]] at hr
      cases hr
  · intro r hr
    by_cases hrm : r ∈ metas
    · -- a settled request of the window: buffered ones are acknowledged, the others become unknown
      have hwaits : s.Waits metas := by
        rcases hcase with ⟨rfl, -⟩ | ⟨-, hhand | ⟨-, hwaits⟩⟩
        · cases hrm
        · exact absurd rfl (h.settled_ne_hand hr (hhand ▸ hrm))
        · exact hwaits
      have hok := h.settled r hr
      have hmark := mark_of_mem hrm (WalTicket.complete .unknown) s.tickets
      unfold SettledOk at hok ⊢
      split at hok
      case h_1 =>
        refine hmark.trans ?_
        rw [complete_of_done (by rw [hok]), hok]
      case h_2 hd =>
        refine .inr (.inr (.inl (hmark.trans ?_)))
        rw [(hwaits r hrm).2 hd]
        rfl
    · refine (h.settled r hr).mono (mark_of_not_mem (fun r' hr' heq => hrm ?_) _ _) ?_
      · rw [← h.eq_of_ticket (hmem r' hr') (mem_live_settled hr) heq]
        exact hr'
      · intro _ hw
        exact absurd (hwait ▸ hw) hrm
  · intro t ht
    exact h.acked t (acked_of_mark_complete (by simp) ht)
  · intro w hw r hr
    rcases mem_append.1 hw with hw | hw
    · exact h.abandoned_mark metas .unknown hw hr
    rw [mem_singleton.1 hw] at hr
    have hmark := mark_of_mem hr (WalTicket.complete .unknown) s.tickets
    cases hdone : (s.tickets r.ticket).done with
    | false =>
      rw [complete_of_not_done hdone] at hmark
      exact .inl hmark
    | true =>
      -- only an acknowledged buffered request is completed before the window is
      rw [complete_of_done hdone] at hmark
      rcases hcase with ⟨rfl, -⟩ | ⟨hind, hhand | ⟨-, hwaits⟩⟩
      · cases hr
      · have hheld := h.held r (hhand ▸ hr)
        rw [hpub, hind] at hheld
        rw [hheld] at hdone
        cases hdone
      · have hok := h.settled r (hwaits r hr).1
        unfold SettledOk at hok
        split at hok
        case h_1 => exact .inr (hmark.trans hok)
        case h_2 hd =>
          rw [(hwaits r hr).2 hd] at hdone
          cases hdone

/-- The guard of the leader is dropped. -/
theorem dropStep : Shape (s.dropStep guard) := by
  unfold WalGroup.dropStep
  split
  case h_1 metas hg => exact h.publishUnknown hleader hg
  case h_2 hg =>
    have hst := stage_of hleader hg
    refine ⟨h.flushing_of hleader, h.known, h.named, h.nodup, h.fresh, ?_, ?_, ?_, h.acked, rfl,
      fun _ _ => rfl, h.abandoned, fun _ => by simp [published]⟩
    · intro r hr
      rcases h.queued r hr with hnew | ⟨hfailed, -⟩
      · exact .inl hnew
      · exact .inr ⟨hfailed, rfl⟩
    · intro r hr
      have hheld := h.held r hr
      rw [show s.published = true by simp [published, hst]] at hheld
      exact hheld
    · intro r hr
      exact (h.settled r hr).mono rfl (by simp [waiting, hst])
  case h_3 hg =>
    have hst := stage_of hleader hg
    have hstage := h.stage
    simp only [StageOk, hst] at hstage
    refine (h.setLeader false s.detached none rfl ?_ ?_ ?_).moveOwner guard.owner (.inl rfl)
    · simp [published, hstage]
    · simp [waiting, hst]
    · simp [StageOk, stage?, hstage]
  case h_4 => exact h

end

/-- A poisoned segment is sealed. -/
theorem rotatePoisoned : Shape s.rotatePoisoned := h.environment _ _ _

section

variable (hleader : s.leader = some guard)
include hleader

/-- The leader appends. -/
theorem appendStep (write : FrameWrite) (full succeeds : Bool) :
    Shape (s.appendStep guard write full succeeds) := by
  have hsink : ∀ sink, Shape { s with sink } := fun sink => h.environment sink s.sync s.floor
  unfold WalGroup.appendStep
  cases hg : guard.stage with
  | entering =>
    dsimp only
    split
    · split
      · exact h.rotatePoisoned.setStage hleader (hg ▸ rfl) rfl
      · exact h.reject hleader (hg ▸ rfl)
    · exact h.setStage hleader (hg ▸ rfl) rfl
  | first =>
    have hwrote := hsink (s.sink.attempt write (windowFrames s.hand)).2
    dsimp only
    split
    · split
      · exact hwrote.setStage hleader (hg ▸ rfl) rfl
      · exact hwrote.publish hleader (hg ▸ rfl)
    · exact hwrote.setStage hleader (hg ▸ rfl) rfl
  | checking =>
    dsimp only
    split
    · exact h.setStage hleader (hg ▸ rfl) rfl
    · exact h.reject hleader (hg ▸ rfl)
  | rotating =>
    dsimp only
    split
    · exact h.rotatePoisoned.setStage hleader (hg ▸ rfl) rfl
    · exact h.reject hleader (hg ▸ rfl)
  | retrying =>
    have hwrote := hsink (s.sink.attempt write (windowFrames s.hand)).2
    dsimp only
    split
    · exact hwrote.publish hleader (hg ▸ rfl)
    · exact hwrote.reject hleader (hg ▸ rfl)
  | sealing =>
    dsimp only
    split
    · exact h
    · split
      · exact (hsink s.sink.fsyncActive).setStage hleader (hg ▸ rfl) rfl
      · exact (hsink _).reject hleader (hg ▸ rfl)
  | swapping =>
    dsimp only
    split
    · exact (hsink _).publish hleader (hg ▸ rfl)
    · exact h.reject hleader (hg ▸ rfl)
  | _ => exact h

/-- The leader of a group in memory appends. -/
theorem memAppend (succeeds : Bool) : Shape (s.memAppend guard succeeds) := by
  unfold WalGroup.memAppend
  split
  case h_1 hg =>
    split
    · exact (h.environment _ s.sync s.floor).publish hleader (hg ▸ rfl)
    · exact h.reject hleader (hg ▸ rfl)
  case h_2 => exact h

/-- The leader's sync ends. -/
theorem syncStep (succeeds : Bool) : Shape (s.syncStep guard succeeds) := by
  unfold WalGroup.syncStep
  split
  case h_1 window hg =>
    split
    · split
      · have hsynced := h.environment s.sink.fsyncActive s.sync s.floor
        exact hsynced.finishSync hleader (.inl hg) true
      · exact h.finishSync hleader (.inl hg) false
    · obtain ⟨hind, hhand, hdet, hwaits, hwait, hpub⟩ := h.inSync hleader (.inl hg)
      refine h.setLeader s.flushing s.detached _ (h.flushing_of hleader) ?_ ?_ ?_
      · rw [hpub]
        simp [published, stage?, hind]
      · rw [hwait]
        simp [waiting, stage?]
      · exact ⟨hind, hhand, hdet, hwaits⟩
  case h_2 window epoch target hg =>
    split
    · exact h.finishSync hleader (.inr ⟨epoch, target, hg⟩) true
    · split
      · exact h.finishSync hleader (.inr ⟨epoch, target, hg⟩) false
      · exact h
  case h_3 => exact h

end

/-- The blocking write of an abandoned window lands. -/
theorem land (write : FrameWrite) : Shape (s.land write) := by
  unfold WalGroup.land
  split
  case isFalse => exact h
  case isTrue hdet =>
    have hlanded := h.environment (s.sink.attempt write (windowFrames s.hand)).2 s.sync s.floor
    refine hlanded.setLeader s.flushing false s.leader h.guard rfl (fun _ => id) ?_
    have hstage := h.stage
    unfold StageOk at hstage ⊢
    simp only [stage?] at hstage ⊢
    split at hstage
    case h_13 => exact hstage
    all_goals simp_all

/-- Every step of a leader. -/
theorem leaderStep (hleader : s.leader = some guard) (e : Event) :
    Shape (s.leaderStep guard e) := by
  unfold WalGroup.leaderStep
  split
  case h_1 =>
    split
    · exact h.lead hleader (by assumption)
    · exact h
  case h_2 =>
    split
    · exact h.memAppend hleader _
    · exact h.appendStep hleader _ _ _
  case h_3 => exact h.syncStep hleader _
  case h_4 =>
    split
    · exact h.drain hleader (by assumption)
    · exact h
  case h_5 => exact h.dropGuard hleader
  case h_6 => exact h.dropStep hleader
  case h_7 => exact h

/-- A round of the coordinator ends. -/
theorem roundSync (succeeds : Bool) : Shape (s.roundSync succeeds) := by
  have hfail : ∀ sink, Shape ({ s with sink } : WalGroup).roundFail := by
    intro sink
    unfold roundFail
    split
    · exact h.environment _ s.sync s.floor
    · exact h.environment _ _ s.floor
  unfold WalGroup.roundSync
  split
  · split
    · exact h.environment _ _ s.floor
    · exact hfail _
  · split
    · exact h.environment _ _ s.floor
    · exact hfail s.sink
  · exact h

/-- **The step lemma.** -/
theorem step (e : Event) : Shape (s.step e) := by
  have hsync : ∀ sync, Shape { s with sync } := fun sync => h.environment s.sink sync s.floor
  -- the coordinator of the syncs is not part of the shape
  cases e with ((simp only [WalGroup.step, WalGroup.appendMany, WalGroup.roundStart,
    WalGroup.roundCapture, WalGroup.roundFsync, WalGroup.roundFail, WalGroup.demand,
    WalGroup.demandStep]; repeat' split) <;> first | exact h | exact hsync _ | skip)
  | appendTicketed payload version durability => exact h.appendTicketed payload version durability
  | appendMany entries durability => exact h.submit entries durability
  | call t => exact h.driveAndWait t ‹_›
  | cancel t => exact h.cancel t
  | land write => exact h.land write
  | roundSync succeeds => exact h.roundSync succeeds
  | _ => exact h.leaderStep ‹_› _

end Shape

end WalGroup

end ShamirDb
